/-
  The file system when memory is missing.

  `Sound` is the invariant of the file system without the promise that `malloc` finds memory.  Functions
  that only read the device return whatever it answers: with less than they were asked for, or with nothing.
-/
import Pintos.Fs.Calls
import Pintos.Fs.Frame
import Pintos.Fs.ScarceDir

namespace Pintos

open Lib Prog List

/-- All allocations to come succeed. -/
def Fs.plenty (s : Fs) : Fs := s.withMemory fun _ => true

/-! ## Reading -/

section
variable {s : Fs} {n : Inode} {i : ℕ} {c : List UInt8} {name : Name}

theorem bounceBuffer_scarce (s : Fs) (bounce : Bool) :
    Prog.Returns (bounceBuffer bounce) s fun found t => SameButMemory s t ∧
      (found = true ↔ bounce = true ∨ s.memory 0 = true) := by
  cases bounce with
  | true => exact .pure ⟨.refl s, by simp⟩
  | false => exact .of_run (malloc_scarce s) ⟨⟨_, rfl⟩, by simp⟩

theorem readLoop_scarce (n : Inode) (bounce : Bool) (size : ℤ) (offset : ℕ) (buffer : List UInt8) (hd : InDevice s n.data) :
    Prog.Returns (readLoop n size.toNat bounce size offset buffer) s fun l t => SameButMemory s t ∧
      ∃ k ≤ within n.data.length size offset, l = buffer ++ slice s.disk (512 * n.data.start + offset) k ∧
        (bounce = true ∨ s.memory 0 = true → k = within n.data.length size offset) :=
  .of_run (readLoop_exact _ s bounce size offset buffer hd le_rfl) ⟨⟨_, rfl⟩, _, moved_le, rfl, moved_of_bounce⟩

theorem writeLoop_scarce (n : Inode) (buffer : ℕ → UInt8) (bounce : Bool) (size : ℤ) (offset written : ℕ)
    (hd : InDevice s n.data) :
    Prog.Returns (writeLoop n buffer size.toNat bounce size offset written) s fun r t =>
      ∃ k ≤ within n.data.length size offset, r = written + k ∧
        SameButMemory (s.withDisk (store s.disk (512 * n.data.start + offset) (slice buffer written k))) t ∧
        (bounce = true ∨ s.memory 0 = true → k = within n.data.length size offset) :=
  .of_run (writeLoop_exact buffer _ s bounce size offset written hd le_rfl)
    ⟨_, moved_le, rfl, ⟨_, rfl⟩, moved_of_bounce⟩

theorem Content.read_scarce (h : Content s i n c) (size : ℤ) (offset : ℕ) :
    Prog.Returns (inodeReadAt i size offset) s fun l t => SameButMemory s t ∧ l <+: (c.drop offset).take size.toNat := by
  have hslice : slice s.disk (512 * n.data.start + offset) (within c.length size offset) =
      (c.drop offset).take size.toNat := by
    rw [← h.slice_eq, drop_slice, take_slice, length_slice]
    rfl
  refine .bind_run (getInode_run h.get) ((readLoop_scarce n _ _ _ _ h.inDevice).mono ?_)
  rintro l t ⟨ht, k, hk, rfl, -⟩
  rw [h.length_eq] at hk
  refine ⟨ht, ?_⟩
  rw [nil_append, ← hslice, ← Nat.min_eq_left hk, ← take_slice]
  exact take_prefix _ _

theorem lookup_scarce {m : ℕ} {dir : Dir} (h : Content s dir.inode n c) (hc : c.length = 20 * m) (name : Name) :
    Prog.Returns (lookup dir name) s fun r t => SameButMemory s t ∧
      ∀ e ofs, r = some (e, ofs) → ∃ k < m, (entryAt c k).hasName name = true ∧ e = entryAt c k := by
  refine (scanDir_exact (DirEntry.hasName name) h hc).bind fun res t ⟨k, hscan⟩ => .pure ⟨⟨_, hscan.state⟩, fun e ofs he => ?_⟩
  split_ifs at he with hres
  obtain ⟨hk, -, hname⟩ := hscan.found.1 hres
  obtain ⟨rfl, -⟩ := Prod.mk.inj (Option.some.inj he)
  rw [Nat.zero_add] at hname
  rw [hscan.entry hres, Nat.zero_add]
  exact ⟨k, hk, hname, rfl⟩

end

/-! ## The invariant -/

/-- What `Inv` says of the state, whatever `malloc` answers. -/
def Sound (s : Fs) (nodes : Nodes) (refs : List ℕ) : Prop := Inv s.plenty nodes refs

/-- The files and the references stay on their inodes. -/
structure Stays (s t : Fs) (refs : List ℕ) : Prop where
  same : SameFiles s t
  refs : ∀ j ∈ refs, t.sectorAt j = s.sectorAt j

section
variable {s t : Fs} {nodes : Nodes} {refs : List ℕ} {i k : ℕ} {n : Inode} {nd : Node}

theorem Stays.of_memory (refs : List ℕ) (h : SameButMemory s t) : Stays s t refs := by
  obtain ⟨m, rfl⟩ := h
  exact ⟨⟨rfl, rfl, rfl⟩, fun _ _ => rfl⟩

theorem Stays.trans {u : Fs} (h : Stays s t refs) (h' : Stays t u refs) : Stays s u refs :=
  ⟨h.same.trans h'.same, fun j hj => (h'.refs j hj).trans (h.refs j hj)⟩

theorem Stays.subset {refs' : List ℕ} (h : Stays s t refs) (hsub : refs' ⊆ refs) : Stays s t refs' :=
  ⟨h.same, fun j hj => h.refs j (hsub hj)⟩

theorem Inv.sound (h : Inv s nodes refs) : Sound s nodes refs := by
  have hplenty : s.plenty = s := by
    unfold Fs.plenty Fs.withMemory
    rw [← h.memory]
  unfold Sound
  rwa [hplenty]

namespace Sound

theorem congr (h : Sound s nodes refs) (ht : SameButMemory s t) : Sound t nodes refs := by
  obtain ⟨m, rfl⟩ := ht
  exact h

theorem perm {refs' : List ℕ} (h : Sound s nodes refs) (hp : refs.Perm refs') : Sound s nodes refs' := Inv.perm h hp

theorem counted (h : Sound s nodes refs) : Counted s refs := (Inv.opened h).toCounted.congr rfl rfl rfl

theorem content (h : Sound s nodes refs) (hn : s.inodes.get i = some n) (hk : nodes n.sector = some nd) :
    Content s i n nd.content :=
  (Inv.content h hn hk).congr ⟨s.memory, rfl⟩

theorem node (h : Sound s nodes refs) (hn : s.inodes.get i = some n) : ∃ nd, nodes n.sector = some nd ∧ nd.data = n.data :=
  Inv.node h hn

theorem openLoop_plenty {sector : ℕ} {r : Option ℕ} :
    ∀ (l : List ℕ), (openLoop sector l).run s = .ok (r, s) → (openLoop sector l).run s.plenty = .ok (r, s.plenty)
  | [], hrun => by
    obtain ⟨rfl, -⟩ := ok_inj hrun
    rfl
  | i :: l, hrun => by
    obtain ⟨n, t, hget, hrun⟩ := ok_of_run_bind hrun
    obtain ⟨hn, ht⟩ := ok_of_getInode hget
    rw [ht] at hrun
    unfold openLoop
    rw [run_bind_ok (getInode_run (s := s.plenty) hn)]
    split_ifs at hrun ⊢
    · obtain ⟨rfl, -⟩ := ok_inj hrun
      rfl
    · exact openLoop_plenty l hrun

theorem inodeOpen_scarce (h : Counted s refs) (hrun : (inodeOpen k).run s.plenty = .ok (some i, t)) :
    Prog.Returns (inodeOpen k) s fun r u => r = some i ∧ SameButMemory t u ∨ r = none ∧ SameButMemory s u := by
  unfold inodeOpen at hrun ⊢
  refine .bind_run (run_get s) ?_
  rw [run_bind_get, show s.plenty.openInodes = s.openInodes from rfl] at hrun
  rcases openLoop_run k (fun i hi => (h.mem_iff i).1 hi) s.openInodes (List.Subset.refl _) with
    ⟨j, n, hloop, -, hn, -⟩ | ⟨hloop, -⟩
  · rw [run_bind_ok (openLoop_plenty s.openInodes hloop)] at hrun
    obtain ⟨hi, rfl⟩ := ok_inj ((inodeReopen_run (s := s.plenty) hn).symm.trans hrun)
    exact .bind_run hloop (.of_run (inodeReopen_run hn) (.inl ⟨hi, s.memory, rfl⟩))
  · rw [run_bind_ok (openLoop_plenty s.openInodes hloop)] at hrun
    refine .bind_run hloop (.bind_run (malloc_scarce s) ?_)
    rw [run_bind_ok (malloc_scarce s.plenty), if_pos (show s.plenty.memory 0 = true from rfl)] at hrun
    split_ifs
    · obtain ⟨data, u, hread, hset⟩ := ok_of_run_bind hrun
      unfold blockRead at hread
      rw [run_bind_get] at hread
      split_ifs at hread with hlt
      · obtain ⟨rfl, rfl⟩ := ok_inj hread
        obtain ⟨hi, rfl⟩ := ok_inj hset
        exact .bind_run (blockRead_run hlt) (.bind_run (run_get _) (.bind_run (run_set _ _)
          (.pure (.inl ⟨hi, fun n => s.memory (n + 1), rfl⟩))))
      · cases hread
    · exact .pure (.inr ⟨rfl, _, rfl⟩)

/-- **Opening** an inode that is kept gives a reference to it, if there is memory. -/
theorem openInode (h : Sound s nodes refs) (hkept : Kept nodes k) :
    Prog.Returns (inodeOpen k) s fun r t =>
      Sound t nodes (r.toList ++ refs) ∧ Stays s t refs ∧ ∀ i, r = some i → t.sectorAt i = some k := by
  obtain ⟨i, t, hrun, hopen⟩ := Inv.openInode h hkept
  have hsound : Sound t nodes (i :: refs) := hopen.inv.sound
  refine (inodeOpen_scarce h.counted hrun).mono ?_
  rintro r u (⟨rfl, m, rfl⟩ | ⟨rfl, hu⟩)
  · refine ⟨hsound, ⟨⟨hopen.same.files, ?_, hopen.same.freeMapFile⟩, fun j hj => hopen.refs j hj⟩, fun j hj => ?_⟩
    · exact hopen.same.fileSector
    · cases hj
      exact hopen.sectorAt
  · exact ⟨h.congr hu, .of_memory refs hu, nofun⟩

theorem closeInode_plenty (s : Fs) (i : ℕ) (n : Inode) : s.plenty.closeInode i n = (s.closeInode i n).plenty := by
  unfold Fs.closeInode
  split_ifs <;> rfl

/-- **Closing** a reference to an inode that is kept. -/
theorem closeRef (h : Sound s nodes (i :: refs)) (hsec : s.sectorAt i = some k) (hkept : Kept nodes k) :
    Prog.Returns (inodeClose (some i)) s fun _ t => Sound t nodes refs ∧ Stays s t refs := by
  obtain ⟨n, hn, rfl⟩ := Option.map_eq_some_iff.1 hsec
  have hremoved : n.removed = false := by
    rw [Bool.eq_false_iff]
    exact fun hr => ((Inv.opened h).inode hn).removed_iff.1 hr hkept
  refine .of_run (inodeClose_run hn (.inl hremoved)) ⟨?_, ⟨?_, ?_, ?_⟩, fun j hj => ?_⟩
  · unfold Sound
    rw [← closeInode_plenty]
    exact Inv.closeInode h hn
  · unfold Fs.closeInode
    split_ifs <;> rfl
  · exact h.counted.fileSector_close hn
  · unfold Fs.closeInode
    split_ifs <;> rfl
  · exact h.counted.sectorAt_close hn (.inl hj)

theorem openRoot (h : Sound s nodes refs) :
    Prog.Returns dirOpenRoot s fun r t =>
      Sound t nodes (r.toList.map Dir.inode ++ refs) ∧ Stays s t refs ∧ ∀ d, r = some d → t.sectorAt d.inode = some 1 := by
  have hkept : Kept nodes 1 := .inl (by decide)
  refine (h.openInode hkept).bind fun r t ⟨h1, hstay, hsec⟩ => .bind_run (malloc_scarce t) ?_
  have ht : SameButMemory t (t.withMemory fun n => t.memory (n + 1)) := ⟨_, rfl⟩
  cases r with
  | none => exact .bind_run rfl (.pure ⟨h1.congr ht, hstay.trans (.of_memory refs ht), nofun⟩)
  | some i =>
    cases t.memory 0 with
    | true =>
      refine .pure ⟨h1.congr ht, hstay.trans (.of_memory refs ht), fun d hd => ?_⟩
      cases hd
      exact hsec i rfl
    | false =>
      refine ((h1.congr ht).closeRef (hsec i rfl) hkept).bind fun _ u ⟨h2, hstay2⟩ => .pure ⟨h2, ?_, nofun⟩
      exact (hstay.trans (.of_memory refs ht)).trans hstay2

theorem lookupName {d : Dir} (h : Sound s nodes refs) (hd : s.sectorAt d.inode = some 1) (name : Name) :
    Prog.Returns (dirLookup d name) s fun r t =>
      Sound t nodes (r.toList ++ refs) ∧ Stays s t refs ∧ ∀ i, r = some i → ∃ k, Bound nodes name k ∧ t.sectorAt i = some k := by
  obtain ⟨root, hroot, hdir⟩ := Inv.root h
  obtain ⟨n, hcontent, -⟩ := Inv.rootContent h hd hroot
  have hcontent : Content s d.inode n root.content := hcontent.congr ⟨s.memory, rfl⟩
  refine (lookup_scarce hcontent hdir.length_eq name).bind fun found t ⟨ht, hfound⟩ => ?_
  cases found with
  | none => exact .pure ⟨h.congr ht, .of_memory refs ht, nofun⟩
  | some e =>
    obtain ⟨j, hj, hname, he⟩ := hfound e.1 e.2 rfl
    have hbound : Bound nodes name e.1.inodeSector := (bound_iff hroot _ _).2 ⟨j, hj, hname, by rw [he]⟩
    refine ((h.congr ht).openInode (Inv.bound_kept hbound)).mono fun r u ⟨h1, hstay, hsec⟩ => ?_
    exact ⟨h1, (Stays.of_memory refs ht).trans hstay, fun i hi => ⟨_, hbound, hsec i hi⟩⟩

end Sound

end

end Pintos
