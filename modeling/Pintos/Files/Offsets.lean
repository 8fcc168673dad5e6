/-
  System calls on files with any numbers.

  The arguments of system calls are words, and the file system computes with signed offsets and asserts that
  they are not negative.
-/
import Pintos.Files.Attached

namespace Pintos.Files

open Lib Prog List

variable {s s' : Sys} {mem : Memory} {t fd file : ℕ} {e : FdElem} {fs : Fs} {α : Type}

namespace Attached

theorem tell_seek (h : Attached s) (he : e ∈ s.fdList t) {p : ℕ} (hp : p < 2 ^ 31) :
    ∃ s', (seek e.fd p).run s = .ok ((), s') ∧ (tell e.fd).run s' = .ok (p, s') := by
  obtain ⟨f, hf⟩ := Option.isSome_iff_exists.1 (h.live he)
  set fs := s.fs.withFiles (s.fs.files.set e.f { f with pos := p }) with hfs
  have hseek : (fileSeek e.f (Int.bmod p (2 ^ 32))).run s.fs = .ok ((), fs) := by
    unfold fileSeek
    have hpos : Int.bmod p (2 ^ 32) = p := by
      rw [Int.bmod_def]
      split_ifs <;> omega
    rw [run_bind_ok (getFile_run hf), hpos, if_neg (by omega)]
    rfl
  have htell : (fileTell e.f).run fs = .ok (p, fs) := by
    unfold fileTell
    have hget : fs.files.get e.f = some { f with pos := p } := (Heap.get_set hf _).trans (if_pos rfl)
    rw [run_bind_ok (getFile_run hget)]
    rfl
  have htable : Table (s.withFs fs) := h.table.congr rfl rfl rfl
  refine ⟨s.withFs fs, ?_, ?_⟩
  · unfold seek
    rw [run_bind_ok (h.table.getFileP_some he)]
    exact onFs_run hseek
  · unfold tell
    rw [run_bind_ok (htable.getFileP_some he)]
    exact onFs_run htell

theorem seek_fails (h : Attached s) (he : e ∈ s.fdList t) {p : ℕ} (hp : 2 ^ 31 ≤ p % 2 ^ 32) :
    (seek e.fd p).run s = .error (.fs .position) := by
  obtain ⟨f, hf⟩ := Option.isSome_iff_exists.1 (h.live he)
  have hseek : (fileSeek e.f (Int.bmod p (2 ^ 32))).run s.fs = .error .position := by
    unfold fileSeek
    have hneg : Int.bmod p (2 ^ 32) < 0 := by
      rw [Int.bmod_def]
      split_ifs <;> omega
    rw [run_bind_ok (getFile_run hf), if_pos hneg]
    rfl
  unfold seek
  rw [run_bind_ok (h.table.getFileP_some he)]
  unfold onFs
  rw [run_bind_get, hseek]
  rfl

end Attached

/-! ## Runs -/

/-- `create`, and the calls with a descriptor. -/
def Call.isIo : Call → Bool
  | .create .. | .use .. => true
  | .remove _ | .open_ _ | .exit => false

/-- The position of a `seek` on an open descriptor is one of an offset; files are opened with new
    numbers. -/
def OffsetsOk (s : Sys) (q : Request) : Prop :=
  match q.call with
  | .use fd (.seek position) => s.Unheld fd ∨ position % 2 ^ 32 < 2 ^ 31
  | .open_ _ => s.Unheld s.globalFd
  | .create .. | .use .. => True
  | .remove _ | .exit => False

instance (s : Sys) : (q : Request) → Decidable (OffsetsOk s q)
  | ⟨_, _, .use _ (.seek _)⟩ => inferInstanceAs (Decidable (_ ∨ _))
  | ⟨_, _, .open_ _⟩ => inferInstanceAs (Decidable (Sys.Unheld _ _))
  | ⟨_, _, .create ..⟩ | ⟨_, _, .use _ .close⟩ | ⟨_, _, .use _ (.read ..)⟩ | ⟨_, _, .use _ (.write ..)⟩
  | ⟨_, _, .use _ .tell⟩ | ⟨_, _, .use _ (.filesize _)⟩ => inferInstanceAs (Decidable True)
  | ⟨_, _, .remove _⟩ | ⟨_, _, .exit⟩ => inferInstanceAs (Decidable False)

/-- The call fails no assertion of file.c or inode.c. -/
def NoAssertion (s : Sys) (q : Request) : Prop :=
  ∀ p, (q.call.exec q.mem q.t).run s = .error (.fs p) → p.isAssertion = false

theorem Attached.noAssert_io {q : Request} (h : Attached s) (hio : q.call.isIo = true) (hq : OffsetsOk s q) :
    NoAssertCall (q.call.exec q.mem q.t) s fun _ s' => Attached s' := by
  obtain ⟨t, mem, call⟩ := q
  cases call with
  | create file size => exact (h.noAssert_create file size).bind fun _ _ hs => .pure (h.stays hs)
  | use fd u =>
    by_cases hu : u = .close
    · subst hu
      refine (h.noAssert_close fd).bind fun _ s' hs => .pure ?_
      rcases hs with hs | ⟨t, e, he, -, hd⟩
      · exact h.stays hs
      · exact h.drops he hd
    · refine (h.noAssert_use mem fd hu fun position hseek => ?_).mono fun _ _ hs => h.stays hs
      subst hseek
      exact hq
  | remove | open_ | exit => cases hio

theorem Attached.step {q : Request} (h : Attached s) (hq : OffsetsOk s q) (hstep : s.step q = some s') : Attached s' := by
  obtain ⟨ht, ret, u, hrun, rfl⟩ := step_spec hstep
  have hu : Attached u := by
    cases hio : q.call.isIo with
    | true => exact (h.noAssert_io hio hq).ok hrun
    | false =>
      obtain ⟨t, mem, call⟩ := q
      cases call with
      | open_ file =>
        have hopen : NoAssertCall (Call.exec mem t (.open_ file)) s fun _ s' => Attached s' :=
          (h.noAssert_open ht (h.table.free_of_unheld hq)).bind fun _ _ h' => .pure h'
        exact hopen.ok hrun
      | remove | exit => exact absurd hq id
      | create | use => cases hio
  exact hu.stays ⟨rfl, rfl, rfl, hu.counted, fun _ => rfl, rfl⟩

/-- **Any numbers.**  In every state that is reached by calls whose positions are offsets, a call fails
    no assertion exactly if its position is an offset; and `tell` returns what was set with `seek`. -/
theorem offsets_ok {s0 : Sys} (h : Attached s0) (hr : Reaches Sys.step OffsetsOk s0 s) :
    (∀ q : Request, q.call.isIo = true → (NoAssertion s q ↔ OffsetsOk s q)) ∧
    ∀ {t e p}, e ∈ s.fdList t → p < 2 ^ 31 →
      ∃ s', (seek e.fd p).run s = .ok ((), s') ∧ (tell e.fd).run s' = .ok (p, s') := by
  have hs : Attached s := hr.invariant h fun _ _ _ ih hq hstep => ih.step hq hstep
  refine ⟨fun q hio => ⟨fun hno => ?_, fun hq p hrun => ?_⟩, fun he hp => hs.tell_seek he hp⟩
  · obtain ⟨t, mem, call⟩ := q
    cases call with
    | create => trivial
    | use fd u =>
      cases u with
      | seek position =>
        by_contra hbad
        change ¬ (s.Unheld fd ∨ position % 2 ^ 32 < 2 ^ 31) at hbad
        unfold Sys.Unheld at hbad
        push Not at hbad
        obtain ⟨⟨t', -, e, he, rfl⟩, hp⟩ := hbad
        have hfail : (Call.exec mem t (.use e.fd (.seek position))).run s = .error (.fs .position) := by
          change StateT.run (do seek e.fd position; pure Ret.void) s = _
          rw [StateT.run_bind, hs.seek_fails he hp]
          rfl
        cases hno _ hfail
      | _ => trivial
    | remove | open_ | exit => cases hio
  · exact Bool.eq_false_iff.2 ((hs.noAssert_io hio hq).error hrun)

theorem twoFiles_counted : Pintos.Counted twoFiles [] ∧ MapLive twoFiles := by
  obtain ⟨a, nodes, hinv, -⟩ := twoFiles_formatted.sim
  refine ⟨hinv.opened.toCounted, ?_⟩
  obtain ⟨nd, hnd, -⟩ := hinv.mapNode
  obtain ⟨m, hm, hfile⟩ := hinv.mapFile_ok hnd
  obtain ⟨f, n, hf, hn, -⟩ := hfile.isOpen
  exact ⟨m, f, n, hm, hf, hn⟩

theorem attached_twoFiles : Attached (.boot twoFiles [7, 8]) := .boot twoFiles_counted.1 twoFiles_counted.2 (by decide)

/-- A file of three bytes is read up to its end and beyond, with a length that is negative as an
    offset; then its position is set and told. -/
theorem offsets_ok_told : ∃ s s', Reaches Sys.step OffsetsOk (.boot twoFiles [7, 8]) s ∧
    (seek 2 (2 ^ 31 - 1)).run s = .ok ((), s') ∧ (tell 2).run s' = .ok (2 ^ 31 - 1, s') := by
  obtain ⟨s, hs, hp⟩ := reaches_of_run Sys.step OffsetsOk (.boot twoFiles [7, 8])
    [⟨7, namesAB, .open_ 1⟩, ⟨7, namesAB, .use 2 (.read 1 5 fun _ => 0)⟩,
      ⟨7, namesAB, .use 2 (.read 1 (2 ^ 32 - 1) fun _ => 0)⟩]
    (fun s => decide (s.fdList 7 = [⟨2, 2, 1⟩])) (by decide +kernel)
  have he : ⟨2, 2, 1⟩ ∈ s.fdList 7 := by
    rw [of_decide_eq_true hp]
    exact mem_cons_self
  obtain ⟨s', hseek, htell⟩ := (offsets_ok attached_twoFiles hs).2 he (show 2 ^ 31 - 1 < 2 ^ 31 by decide)
  exact ⟨s, s', hs, hseek, htell⟩

/-- A file is opened and its position is to be 2^31. -/
theorem seek_panics : ∃ s, Reaches Sys.step OffsetsOk (.boot twoFiles [7, 8]) s ∧ (s.fdList 7).map FdElem.fd = [2] ∧
    (seek 2 (2 ^ 31)).run s = .error (.fs .position) ∧
    ¬ NoAssertion s ⟨7, namesAB, .use 2 (.seek (2 ^ 31))⟩ := by
  obtain ⟨s, hs, hp⟩ := reaches_of_run Sys.step OffsetsOk (.boot twoFiles [7, 8]) [⟨7, namesAB, .open_ 1⟩]
    (fun s => decide (s.fdList 7 = [⟨2, 2, 1⟩])) (by decide +kernel)
  have hlist := of_decide_eq_true hp
  have hatt : Attached s := hs.invariant attached_twoFiles fun _ _ _ ih hq hstep => ih.step hq hstep
  have hfail : (seek 2 (2 ^ 31)).run s = .error (.fs .position) :=
    hatt.seek_fails (e := ⟨2, 2, 1⟩) (by rw [hlist]; exact mem_cons_self) (by decide)
  refine ⟨s, hs, by rw [hlist]; rfl, hfail, fun hno => ?_⟩
  have hrun : (Call.exec namesAB 7 (.use 2 (.seek (2 ^ 31)))).run s = .error (.fs .position) := by
    change StateT.run (do seek 2 (2 ^ 31); pure Ret.void) s = _
    rw [StateT.run_bind, hfail]
    rfl
  cases hno _ hrun

end Pintos.Files
