/-
  The files that `load` opens.

  Wherever `load` returns, whatever the file holds and whenever memory is missing, the file of the
  program is open if it succeeds, and the files are open that were open before if it fails.
-/
import Pintos.Fs.Assertions
import Pintos.Process.Load

namespace Pintos.Process

open Lib Prog

section
variable {α : Type} {I : Fs → Prop} {file : ℕ}

theorem preserves_onFs {x : FsM α} (hx : Prog.Preserves I x) : Prog.Preserves (fun p : Proc => I p.fs) (onFs x) := by
  intro p a t hp hrun
  obtain ⟨fs, hx', rfl⟩ := ok_of_zoom hrun
  exact hx _ _ _ hp hx'

theorem preserves_onPg (x : Paging.PgM α) : Prog.Preserves (fun p : Proc => I p.fs) (onPg x) := by
  intro p a t hp hrun
  obtain ⟨pg, -, rfl⟩ := ok_of_zoom hrun
  exact hp

theorem preserves_pure (a : α) : Prog.Preserves (fun p : Proc => I p.fs) (pure a : LoadM α) := (keeps_pure a).preserves

theorem preserves_throw (e : Fault) : Prog.Preserves (fun p : Proc => I p.fs) (throw e : LoadM α) := (keeps_throw e).preserves

/-- Reading and moving the file keeps `I`. -/
structure ReadFrame (file : ℕ) (I : Fs → Prop) : Prop where
  read : ∀ size, Prog.Preserves I (fileRead file size)
  seek : ∀ newPos, Prog.Preserves I (fileSeek file newPos)
  length : Prog.Preserves I (fileLength file)

theorem preserves_assert (P : Prop) [Decidable P] : Prog.Preserves (fun p : Proc => I p.fs) (assert P) :=
  Prog.Preserves.ite (preserves_pure ()) (preserves_throw _)

theorem preserves_uint32 (x : ℤ) : Prog.Preserves (fun p : Proc => I p.fs) (uint32 x) :=
  Prog.Preserves.ite (preserves_pure _) (preserves_throw _)

theorem preserves_get : Prog.Preserves (fun p : Proc => I p.fs) (get : LoadM Proc) := keeps_get.preserves

theorem preserves_installPage (upage kpage : ℕ) (writable : Bool) :
    Prog.Preserves (fun p : Proc => I p.fs) (installPage upage kpage writable) := by
  refine preserves_get.bind fun p => (preserves_onPg _).bind fun old => ?_
  cases old with
  | none => exact preserves_onPg _
  | some _ => exact preserves_pure _

theorem preserves_fillPage (h : ReadFrame file I) (upage kpage pageReadBytes : ℕ) (writable : Bool) :
    Prog.Preserves (fun p : Proc => I p.fs) (fillPage file upage kpage pageReadBytes writable) := by
  have hfree : Prog.Preserves (fun p : Proc => I p.fs) (do onPg (Paging.pallocFreePage kpage); pure false) :=
    (preserves_onPg _).bind fun _ => preserves_pure _
  refine (preserves_onFs (h.read _)).bind fun bytes => (preserves_onPg _).bind fun _ => .ite hfree ?_
  exact (preserves_onPg _).bind fun _ => (preserves_installPage upage kpage writable).bind fun _ => .ite (preserves_pure _) hfree

theorem preserves_loadPages (h : ReadFrame file I) (writable : Bool) : ∀ turns upage readBytes zeroBytes,
    Prog.Preserves (fun p : Proc => I p.fs) (loadPages file writable turns upage readBytes zeroBytes)
  | 0, _, _, _ => Prog.Preserves.ite (preserves_throw _) (preserves_pure _)
  | turns + 1, upage, readBytes, zeroBytes => by
    refine Prog.Preserves.ite ((preserves_onPg _).bind fun kpage => ?_) (preserves_pure _)
    cases kpage with
    | none => exact preserves_pure _
    | some kpage =>
      refine (preserves_fillPage h upage kpage _ writable).bind fun _ => .ite ?_ (preserves_pure _)
      exact (preserves_uint32 _).bind fun _ => (preserves_uint32 _).bind fun _ => preserves_loadPages h writable turns _ _ _

theorem preserves_loadPhdr (h : ReadFrame file I) (phdr : Phdr) : Prog.Preserves (fun p : Proc => I p.fs) (loadPhdr phdr file) := by
  have hround : ∀ x step, Prog.Preserves (fun p : Proc => I p.fs) (roundUp x step) := fun _ _ =>
    (preserves_uint32 _).bind fun _ => (preserves_uint32 _).bind fun _ => preserves_uint32 _
  have hbytes : Prog.Preserves (fun p : Proc => I p.fs) (segmentBytes phdr) := by
    refine Prog.Preserves.ite ?_ ?_
    · exact (preserves_uint32 _).bind fun _ => (preserves_uint32 _).bind fun _ => (hround _ _).bind fun _ =>
        (preserves_uint32 _).bind fun _ => preserves_pure _
    · exact (preserves_uint32 _).bind fun _ => (hround _ _).bind fun _ => preserves_pure _
  have hvalid : Prog.Preserves (fun p : Proc => I p.fs) (validateSegment phdr file) :=
    Prog.Preserves.ite (preserves_pure _) ((preserves_onFs h.length).bind fun _ => preserves_pure _)
  refine hvalid.bind fun _ => .ite (hbytes.bind fun _ => ?_) (preserves_pure _)
  refine (preserves_uint32 _).bind fun _ => (preserves_assert _).bind fun _ => (preserves_assert _).bind fun _ =>
    (preserves_assert _).bind fun _ => (preserves_onFs (h.seek _)).bind fun _ => preserves_loadPages h _ _ _ _ _

theorem preserves_loadHeaders (h : ReadFrame file I) : ∀ n fileOfs, Prog.Preserves (fun p : Proc => I p.fs) (loadHeaders file n fileOfs)
  | 0, _ => preserves_pure _
  | n + 1, fileOfs => by
    refine (preserves_onFs h.length).bind fun _ => .ite (preserves_pure _) ?_
    refine (preserves_onFs (h.seek _)).bind fun _ => (preserves_onFs (h.read _)).bind fun bytes => .ite (preserves_pure _) ?_
    refine .ite (preserves_pure _) (.ite ?_ (preserves_loadHeaders h n _))
    exact (preserves_loadPhdr h _).bind fun _ => .ite (preserves_loadHeaders h n _) (preserves_pure _)

/-- **The part of `load` behind the opening of the file** reads it, and no other. -/
theorem preserves_loadFile (h : ReadFrame file I) : Prog.Preserves (fun p : Proc => I p.fs) (loadFile file) := by
  refine (preserves_onFs (h.read _)).bind fun bytes => .ite ((preserves_loadHeaders h _ _).bind fun _ => .ite ?_ (preserves_pure _))
    (preserves_pure _)
  refine Prog.Preserves.bind ((preserves_onPg _).bind fun kpage => ?_) fun _ => preserves_pure _
  cases kpage with
  | none => exact preserves_pure _
  | some kpage =>
    refine (preserves_installPage _ _ _).bind fun _ => .ite (preserves_pure _) ?_
    exact (preserves_onPg _).bind fun _ => preserves_pure _

end

section
variable {fs : Fs} {file : ℕ} {p t : Proc}

theorem readFrame_oneMore : ReadFrame file (OneMore fs · file) where
  read size s a u h hrun := by
    obtain ⟨f, hf⟩ := Option.isSome_iff_exists.1 h.isOpen
    obtain ⟨hc, hs⟩ := (noAssert_fileRead h.counted hf size).ok hrun
    exact h.congr hc hs
  seek newPos s a u h hrun := by
    obtain ⟨f, hf⟩ := Option.isSome_iff_exists.1 h.isOpen
    by_cases hpos : newPos < 0
    · unfold fileSeek at hrun
      rw [run_bind_ok (getFile_run hf), if_pos hpos] at hrun
      cases hrun
    · obtain ⟨hc, hs⟩ := (noAssert_fileSeek h.counted hf (Int.not_lt.1 hpos)).ok hrun
      exact h.congr hc hs
  length s a u h hrun := by
    obtain ⟨f, hf⟩ := Option.isSome_iff_exists.1 h.isOpen
    obtain rfl := (noAssert_fileLength h.counted hf).ok hrun
    exact h

theorem preserves_fileDenyWrite : Prog.Preserves (OneMore fs · file) (fileDenyWrite file) := by
  intro s a u h hrun
  obtain ⟨f, hf⟩ := Option.isSome_iff_exists.1 h.isOpen
  obtain ⟨hc, hs⟩ := (noAssert_fileDenyWrite h.counted hf).ok hrun
  exact h.congr hc hs

/-- What is open after `load`. -/
def LoadedFiles (fs fs' : Fs) : Option (ℕ × ℕ × ℕ) → Prop
  | some (_, _, file) => OneMore fs fs' file
  | none => Counted fs' [] ∧ SameOpen fs fs'

/-- **`load`** opens the program and leaves it open, or closes it again. -/
theorem load_files {line : Name} {r : Option (ℕ × ℕ × ℕ)} (hc : Counted p.fs []) (hm : MapLive p.fs)
    (hrun : (load line).run p = .ok (r, t)) : LoadedFiles p.fs t.fs r := by
  obtain ⟨pd, q, hpd, hrun⟩ := ok_of_run_bind hrun
  obtain ⟨pg, -, rfl⟩ := ok_of_zoom hpd
  rw [run_bind_modify] at hrun
  cases pd with
  | none =>
    cases hrun
    exact ⟨hc, fun _ => rfl, rfl⟩
  | some pd =>
    obtain ⟨file, q, honFs, hrun⟩ := ok_of_run_bind hrun
    obtain ⟨fs, hopen, rfl⟩ := ok_of_zoom honFs
    obtain ⟨hc', hnew⟩ := (noAssert_filesysOpen hc hm _).ok hopen
    cases file with
    | none =>
      cases hrun
      exact ⟨hc', sameOpen_of_held hnew⟩
    | some file =>
      have h : OneMore p.fs fs file := .of_newFile hc' hnew
      obtain ⟨_, q1, hdeny, hrun⟩ := ok_of_run_bind hrun
      have h1 := preserves_onFs preserves_fileDenyWrite _ _ _ h hdeny
      obtain ⟨loaded, q2, hload, hrun⟩ := ok_of_run_bind hrun
      have h2 := preserves_loadFile readFrame_oneMore _ _ _ h1 hload
      cases loaded with
      | some entry =>
        obtain ⟨_, q3, hdeny, hrun⟩ := ok_of_run_bind hrun
        cases hrun
        exact preserves_onFs preserves_fileDenyWrite _ _ _ h2 hdeny
      | none =>
        obtain ⟨_, q3, honFs, hrun⟩ := ok_of_run_bind hrun
        cases hrun
        obtain ⟨fs', hclose, rfl⟩ := ok_of_zoom honFs
        obtain ⟨f, hf⟩ := Option.isSome_iff_exists.1 h2.isOpen
        have hless := (noAssert_fileClose_oneLess h2.counted (h2.mapLive hm) hf).ok hclose
        exact ⟨hless.counted, h2.close hless⟩

end

end Pintos.Process
