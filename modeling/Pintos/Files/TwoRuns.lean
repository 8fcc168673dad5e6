/-
  Two runs of the same calls that differ in the memory of the processes.

  A record of a descriptor or of a file that is to be removed keeps a pointer to the name and not the name,
  and the pointer is read again by later calls.
-/
import Pintos.Files.Removal

namespace Pintos.Files

open Lib Prog List

variable {s s' : Sys} {mem mem1 mem2 : Memory} {t fd file : ℕ} {name : Name}

/-! ## What the calls read of the memory -/

/-- The memories have the same strings where the records point to. -/
structure Agree (mem1 mem2 : Memory) (s : Sys) : Prop where
  fds : ∀ t ∈ s.allList, ∀ e ∈ s.fdList t, mem1 e.fileName = mem2 e.fileName
  removing : ∀ rf ∈ s.removingList, mem1 rf.fileName = mem2 rf.fileName

theorem Agree.withFs (h : Agree mem1 mem2 s) (fs : Fs) : Agree mem1 mem2 (s.withFs fs) := ⟨h.fds, h.removing⟩

theorem readName_congr (h : mem1 file = mem2 file) : readName mem1 file = readName mem2 file := by
  unfold readName
  rw [h]

theorem isRemoving_congr {l : List RemovingFile} (h : ∀ rf ∈ l, mem1 rf.fileName = mem2 rf.fileName) :
    isRemoving mem1 name l = isRemoving mem2 name l := by
  induction l with
  | nil => rfl
  | cons rf rest ih =>
    unfold isRemoving
    rw [readName_congr (h rf mem_cons_self), ih fun rf' hrf' => h rf' (mem_cons_of_mem _ hrf')]

theorem alreadyLoop_congr {l : List RemovingFile} (h : ∀ rf ∈ l, mem1 rf.fileName = mem2 rf.fileName) :
    alreadyLoop mem1 t name fd l = alreadyLoop mem2 t name fd l := by
  induction l with
  | nil => rfl
  | cons rf rest ih =>
    unfold alreadyLoop
    rw [readName_congr (h rf mem_cons_self), ih fun rf' hrf' => h rf' (mem_cons_of_mem _ hrf')]

variable {l : List FdElem}

theorem referredIn_congr (h : ∀ e ∈ l, mem1 e.fileName = mem2 e.fileName) :
    referredIn mem1 name l = referredIn mem2 name l := by
  induction l with
  | nil => rfl
  | cons e rest ih =>
    unfold referredIn
    rw [readName_congr (h e mem_cons_self), ih fun e' he' => h e' (mem_cons_of_mem _ he')]

theorem ok_of_readFdList (h : (readFdList t).run s = .ok (l, s')) :
    t ∈ s.allList ∧ l = s.fdList t ∧ s' = s := by
  by_cases ht : t ∈ s.allList
  · rw [readFdList_run ht] at h
    cases h
    exact ⟨ht, rfl, rfl⟩
  · unfold readFdList at h
    rw [run_bind_get, if_neg ht] at h
    cases h

theorem referredLoop_congr (h : Agree mem1 mem2 s) (ts : List ℕ) :
    (referredLoop mem1 name ts).run s = (referredLoop mem2 name ts).run s := by
  induction ts with
  | nil => rfl
  | cons t ts ih =>
    refine run_bind_congr fun l s' hl => ?_
    obtain ⟨ht, rfl, rfl⟩ := ok_of_readFdList hl
    rw [referredIn_congr (h.fds t ht)]
    refine run_bind_congr fun found s' hfound => ?_
    obtain rfl := keeps_referredIn (v := id) mem2 name _ _ _ _ hfound
    cases found with
    | true => rfl
    | false => exact ih

/-! ## Calls that make records -/

theorem addRemoving_congr (h : Agree mem1 mem2 s) :
    (addRemoving mem1 t file name fd).run s = (addRemoving mem2 t file name fd).run s := by
  unfold addRemoving alreadyInRemovingList
  rw [bind_assoc, bind_assoc, run_bind_get, run_bind_get,
    alreadyLoop_congr h.removing]

theorem preserves_addRemoving (hfile : mem1 file = mem2 file) :
    Prog.Preserves (Agree mem1 mem2) (addRemoving mem1 t file name fd) := by
  refine (keeps_alreadyInRemovingList _ _ _ _).preserves.bind fun already => ?_
  refine (keeps_pure ()).preserves.ite ?_
  refine Prog.Preserves.bind (fun s found s' h hm => ?_) fun found => ?_
  · obtain ⟨fs, -, rfl⟩ := ok_of_onFs hm
    exact h.withFs fs
  · refine (preserves_modify fun s h => ⟨h.fds, fun rf hrf => ?_⟩).ite (keeps_throw _).preserves
    rcases mem_append.1 hrf with hrf | hrf
    · exact h.removing rf hrf
    · obtain rfl := mem_singleton.1 hrf
      exact hfile

theorem registerLoop_congr (hfile : mem1 file = mem2 file)
    (hl : ∀ e ∈ l, mem1 e.fileName = mem2 e.fileName) (h : Agree mem1 mem2 s) (referred : Bool) :
    (registerLoop mem1 t file name l referred).run s = (registerLoop mem2 t file name l referred).run s := by
  induction l generalizing s referred with
  | nil => rfl
  | cons e rest ih =>
    have hrest : ∀ e ∈ rest, mem1 e.fileName = mem2 e.fileName := fun e' he' => hl e' (mem_cons_of_mem _ he')
    unfold registerLoop
    rw [readName_congr (hl e mem_cons_self)]
    refine run_bind_congr fun n s' hn => ?_
    obtain ⟨-, rfl⟩ := ok_of_readName hn
    split_ifs
    · refine Eq.trans ?_ (run_bind_congr_left (addRemoving_congr h))
      exact run_bind_congr fun _ s' hadd => ih hrest (preserves_addRemoving hfile _ _ _ h hadd) true
    · exact ih hrest h referred

theorem preserves_registerLoop (hfile : mem1 file = mem2 file) (l : List FdElem) (referred : Bool) :
    Prog.Preserves (Agree mem1 mem2) (registerLoop mem1 t file name l referred) := by
  induction l generalizing referred with
  | nil => exact (keeps_pure referred).preserves
  | cons e rest ih =>
    exact (keeps_readName mem1 e.fileName).preserves.bind fun n =>
      ((preserves_addRemoving hfile).bind fun _ => ih true).ite (ih referred)

theorem isReferred_congr (h : Agree mem1 mem2 s) (ht : t ∈ s.allList) (hfile : mem1 file = mem2 file) :
    (isReferred mem1 t file name).run s = (isReferred mem2 t file name).run s := by
  unfold isReferred
  rw [run_bind_get, run_bind_get]
  refine (run_bind_congr_left (referredLoop_congr h s.fdsLl)).trans ?_
  refine run_bind_congr fun found s' hfound => ?_
  obtain rfl : s' = s := keeps_referredLoop (v := id) mem2 name _ _ _ _ hfound
  cases found with
  | false => rfl
  | true =>
    refine Eq.trans ?_ (run_bind_congr_left (registerLoop_congr hfile (h.fds t ht) h false))
    refine run_bind_congr fun byCt s'' hreg => ?_
    have h' := preserves_registerLoop hfile _ _ _ _ _ h hreg
    cases byCt with
    | true => rfl
    | false =>
      exact run_bind_congr_left (addRemoving_congr h')

/-! ## Calls -/

theorem create_congr (hfile : mem1 file = mem2 file) (size : ℕ) : create mem1 file size = create mem2 file size := by
  unfold create
  rw [readName_congr hfile]

theorem remove_congr (h : Agree mem1 mem2 s) (ht : t ∈ s.allList) (hfile : mem1 file = mem2 file) :
    (remove mem1 t file).run s = (remove mem2 t file).run s := by
  unfold remove
  rw [readName_congr hfile]
  refine run_bind_congr fun n s' hn => ?_
  obtain ⟨-, rfl⟩ := ok_of_readName hn
  exact run_bind_congr_left (isReferred_congr h ht hfile)

theorem open_congr (h : Agree mem1 mem2 s) (hfile : mem1 file = mem2 file) :
    (open_ mem1 t file).run s = (open_ mem2 t file).run s := by
  unfold open_
  rw [readName_congr hfile]
  refine run_bind_congr fun n s' hn => ?_
  obtain ⟨-, rfl⟩ := ok_of_readName hn
  split_ifs
  · rfl
  · rw [run_bind_get, run_bind_get, isRemoving_congr h.removing]

theorem removeClosed_congr (h : ∀ rf ∈ s.removingList, mem1 rf.fileName = mem2 rf.fileName) (o : Option ℕ) :
    (removeClosed mem1 o fd).run s = (removeClosed mem2 o fd).run s := by
  unfold removeClosed
  rw [run_bind_get, run_bind_get]
  cases hfind : s.removingList.find? fun rf => rf.fd == fd && o == some rf.t with
  | none => rfl
  | some rf =>
    dsimp only
    rw [readName_congr (h rf (mem_of_find?_eq_some hfind))]

theorem close_congr (h : Agree mem1 mem2 s) : (close mem1 fd).run s = (close mem2 fd).run s := by
  have hlist : ∀ {s' : Sys} (o : Option ℕ), s'.removingList = s.removingList →
      (removeClosed mem1 o fd).run s' = (removeClosed mem2 o fd).run s' := by
    intro s' o hs'
    exact removeClosed_congr (by rw [hs']; exact h.removing) o
  refine run_bind_congr fun f s' hf => ?_
  obtain rfl : s' = s := keeps_getFileP (v := id) fd _ _ _ hf
  cases f with
  | none => rfl
  | some f =>
    rw [run_bind_get, run_bind_get]
    cases s'.getThreadByFd fd with
    | none =>
      refine run_bind_congr fun _ u hu => hlist none ?_
      exact keeps_onFs (fun _ _ => rfl) _ _ _ _ hu
    | some t =>
      refine run_bind_congr fun _ u hu => run_bind_congr fun _ w hw => hlist (some t) ?_
      have hdrop : u.removingList = s'.removingList := by
        have hkeeps : Prog.Keeps Sys.removingList (dropFd t fd) := by
          refine Prog.Keeps.bind (keeps_modify fun s => rfl) fun _ => keeps_modify fun s => ?_
          split_ifs <;> rfl
        exact hkeeps _ _ _ hu
      rw [keeps_onFs (v := Sys.removingList) (fun _ _ => rfl) _ _ _ _ hw, hdrop]

theorem exec_congr (h : Agree mem1 mem2 s) (ht : t ∈ s.allList) {call : Call} (hname : call.name mem1 = call.name mem2) :
    (call.exec mem1 t).run s = (call.exec mem2 t).run s := by
  cases call with
  | create file size => simp only [Call.exec, create_congr hname]
  | remove file => simp only [Call.exec, StateT.run_bind, remove_congr h ht hname]
  | open_ file => simp only [Call.exec, StateT.run_bind, open_congr h hname]
  | use fd u =>
    cases u with
    | close => simp only [Call.exec, Use.exec, StateT.run_bind, close_congr h]
    | _ => rfl
  | exit => rfl

/-! ## Two runs -/

/-- Strings that a process stored. -/
abbrev Stores := List (ℕ × Option Name)

def Memory.overwrite (mem : Memory) (stored : Stores) : Memory := fun p =>
  match stored.find? (·.1 == p) with
  | some w => w.2
  | none => mem p

/-- A call of a thread in two runs, with its memory in the first and what else it stored in the
    second. -/
structure Twice where
  t : ℕ
  call : Call
  mem : Memory
  stored : Stores

namespace Twice

def first (q : Twice) : Request := ⟨q.t, q.mem, q.call⟩

def second (q : Twice) : Request := ⟨q.t, q.mem.overwrite q.stored, q.call⟩

/-- The call gets the same name in both runs. -/
def SameName (q : Twice) : Prop := q.call.name q.mem = q.call.name (q.mem.overwrite q.stored)

instance (q : Twice) : Decidable q.SameName := decEq _ _

end Twice

/-- A call completes in both runs. -/
def step2 (s : Sys × Sys) (q : Twice) : Option (Sys × Sys) :=
  (s.1.step q.first).bind fun s1 => (s.2.step q.second).map fun s2 => (s1, s2)

/-- The pointer to the name of a file that an `open` or `remove` is given. -/
def Call.namePointer : Call → Option ℕ
  | .remove file | .open_ file => some file
  | _ => none

/-- The memory differs only where a thread had a name for an `open` or `remove` that has returned. -/
def StoredLater (s : Sys × Sys) (q : Twice) : Prop :=
  q.SameName ∧ ∀ w ∈ q.stored, ∃ ev ∈ s.1.log, ev.t = q.t ∧ ev.call.namePointer = some w.1

/-- The memory differs only where no descriptor and no file that is to be removed has its name. -/
def StoresOk (s : Sys × Sys) (q : Twice) : Prop :=
  q.SameName ∧ ∀ w ∈ q.stored, (∀ t ∈ s.1.allList, ∀ e ∈ s.1.fdList t, e.fileName ≠ w.1) ∧
    ∀ rf ∈ s.1.removingList, rf.fileName ≠ w.1

instance (s : Sys × Sys) (q : Twice) : Decidable (StoredLater s q) := instDecidableAnd

instance (s : Sys × Sys) (q : Twice) : Decidable (StoresOk s q) := instDecidableAnd

theorem Memory.overwrite_of_ne {stored : Stores} {p : ℕ} (h : ∀ w ∈ stored, p ≠ w.1) : mem.overwrite stored p = mem p := by
  have hnone : stored.find? (·.1 == p) = none :=
    find?_eq_none.2 fun w hw => by simpa using (h w hw).symm
  rw [Memory.overwrite, hnone]

theorem StoresOk.step_eq {q : Twice} (h : StoresOk (s, s) q) : s.step q.first = s.step q.second := by
  have hagree : Agree q.mem (q.mem.overwrite q.stored) s :=
    ⟨fun t ht e he => (Memory.overwrite_of_ne fun w hw => (h.2 w hw).1 t ht e he).symm,
      fun rf hrf => (Memory.overwrite_of_ne fun w hw => (h.2 w hw).2 rf hrf).symm⟩
  unfold Sys.step
  by_cases ht : q.t ∈ s.allList
  · rw [if_pos (show q.first.t ∈ s.allList from ht), if_pos (show q.second.t ∈ s.allList from ht)]
    have hexec : (q.first.call.exec q.first.mem q.first.t).run s = (q.second.call.exec q.second.mem q.second.t).run s :=
      exec_congr hagree ht h.1
    have hname : q.first.call.name q.first.mem = q.second.call.name q.second.mem := h.1
    rw [hexec, hname]
    rfl
  · rw [if_neg (show q.first.t ∉ s.allList from ht), if_neg (show q.second.t ∉ s.allList from ht)]

/-- **Names of records.**  In two runs of the same calls with the same names, where memory is
    overwritten only if no record has its name there, all results, descriptors and directory entries
    are the same, and a call that completes in the one run completes in the other. -/
theorem same_results {s0 : Sys} {s : Sys × Sys} (h : Reaches step2 StoresOk (s0, s0) s) :
    s.1 = s.2 ∧ ∀ q, StoresOk s q → s.1.step q.first = s.2.step q.second := by
  have heq : s.1 = s.2 := by
    refine h.invariant (P := fun s => s.1 = s.2) rfl ?_
    rintro ⟨s1, s2⟩ q ⟨u1, u2⟩ heq hq hstep
    dsimp only at heq
    subst heq
    obtain ⟨v1, hv1, hstep⟩ := Option.bind_eq_some_iff.1 hstep
    obtain ⟨v2, hv2, hv⟩ := Option.map_eq_some_iff.1 hstep
    obtain ⟨rfl, rfl⟩ := Prod.mk.inj hv
    exact Option.some.inj (hv1.symm.trans (hq.step_eq.trans hv2))
  refine ⟨heq, fun q hq => ?_⟩
  obtain ⟨s1, s2⟩ := s
  dsimp only at heq
  subst heq
  exact hq.step_eq

/-- A process overwrites the name of a file when it has closed it. -/
theorem same_results_closed : ∃ s, Reaches step2 StoresOk (.boot twoFiles [7, 8], .boot twoFiles [7, 8]) s ∧
    (removed s.1.log nameB && s.1.removingList == []) = true ∧
    (s.1 = s.2 ∧ ∀ q, StoresOk s q → s.1.step q.first = s.2.step q.second) := by
  obtain ⟨s, hs, hp⟩ := reaches_of_run step2 StoresOk (.boot twoFiles [7, 8], .boot twoFiles [7, 8])
    [⟨7, .open_ 1, namesAB, []⟩, ⟨7, .use 2 .close, namesAB, []⟩, ⟨7, .remove 2, namesAB, [(1, some nameB)]⟩]
    (fun s => removed s.1.log nameB && s.1.removingList == []) (by decide +kernel)
  exact ⟨s, hs, hp, same_results hs⟩

/-- A process stores the name of another file where it had the name of a file that it has open, and
    removes the other file.  It is removed if nothing was stored; otherwise it counts as open, stays
    in the directory, and can be removed once more. -/
theorem stored_name_decides :
    ∃ s, Reaches step2 StoredLater (.boot twoFiles [7, 8], .boot twoFiles [7, 8]) s ∧
      s.1.log.map Event.ret = [.eax 0, .eax 1, .eax 2] ∧ s.2.log.map Event.ret = [.eax 1, .eax 1, .eax 2] ∧
      ¬ s.1.fs.Lists nameB 6 ∧ s.2.fs.Lists nameB 6 := by
  obtain ⟨s, hs, hp⟩ := reaches_of_run step2 StoredLater (.boot twoFiles [7, 8], .boot twoFiles [7, 8])
    [⟨7, .open_ 1, namesAB, []⟩, ⟨7, .remove 2, namesAB, [(1, some nameB)]⟩,
      ⟨7, .remove 2, namesAB, [(1, some nameB)]⟩]
    (fun s => decide (s.1.log.map Event.ret = [.eax 0, .eax 1, .eax 2] ∧
      s.2.log.map Event.ret = [.eax 1, .eax 1, .eax 2] ∧ ¬ s.1.fs.Lists nameB 6 ∧ s.2.fs.Lists nameB 6))
    (by decide +kernel)
  exact ⟨s, hs, of_decide_eq_true hp⟩

end Pintos.Files
