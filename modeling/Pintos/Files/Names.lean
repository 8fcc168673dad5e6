/-
  Names on the `removing_list` (userprog/syscall.c): what the loops over names find, what
  `is_referred` puts on the list and what the end of `close` takes from it.
-/
import Pintos.Files.Table

namespace Pintos.Files

open Lib Prog List

variable {s s' : Sys} {mem : Memory} {t fd file : ℕ} {e : FdElem} {rf : RemovingFile} {name : Name}

/-! ## Loops over names -/

variable {l : List RemovingFile}

theorem isRemoving_run (h : ∀ rf ∈ l, (mem rf.fileName).isSome) (name : Name) (s : Sys) :
    (isRemoving mem name l).run s = .ok (l.any fun rf => mem rf.fileName == some name, s) := by
  induction l with
  | nil => rfl
  | cons rf rest ih =>
    obtain ⟨n, hn⟩ := Option.isSome_iff_exists.1 (h rf mem_cons_self)
    unfold isRemoving
    rw [run_bind_ok (readName_run hn s), any_cons, hn]
    by_cases he : n = name
    · rw [if_pos he, he, beq_self_eq_true, Bool.true_or]
      rfl
    · rw [if_neg he, ih fun rf' hrf' => h rf' (mem_cons_of_mem _ hrf')]
      have hne : (some n == some name) = false := beq_false_of_ne fun h => he (Option.some.inj h)
      rw [hne, Bool.false_or]

theorem ne_of_isRemoving (h : (isRemoving mem name l).run s = .ok (false, s')) :
    ∀ rf ∈ l, mem rf.fileName ≠ some name := by
  induction l with
  | nil => nofun
  | cons rf rest ih =>
    obtain ⟨n, u, hread, hrest⟩ := ok_of_run_bind h
    obtain ⟨hn, rfl⟩ := ok_of_readName hread
    split_ifs at hrest with he
    · cases hrest
    · intro rf' hrf'
      rcases mem_cons.1 hrf' with rfl | hrf'
      · rwa [hn, Ne, Option.some.injEq]
      · exact ih hrest rf' hrf'

theorem referredIn_run {l : List FdElem} (h : ∀ e ∈ l, (mem e.fileName).isSome) (name : Name) (s : Sys) :
    (referredIn mem name l).run s = .ok (l.any fun e => mem e.fileName == some name, s) := by
  induction l with
  | nil => rfl
  | cons e rest ih =>
    obtain ⟨n, hn⟩ := Option.isSome_iff_exists.1 (h e mem_cons_self)
    unfold referredIn
    rw [run_bind_ok (readName_run hn s), any_cons, hn]
    by_cases he : n = name
    · rw [if_pos he, he, beq_self_eq_true, Bool.true_or]
      rfl
    · rw [if_neg he, ih fun e' he' => h e' (mem_cons_of_mem _ he')]
      have hne : (some n == some name) = false := beq_false_of_ne fun h => he (Option.some.inj h)
      rw [hne, Bool.false_or]

theorem referredLoop_run {ts : List ℕ} (hts : ∀ t ∈ ts, t ∈ s.allList)
    (h : ∀ t ∈ ts, ∀ e ∈ s.fdList t, (mem e.fileName).isSome) (name : Name) :
    (referredLoop mem name ts).run s =
      .ok (ts.any fun t => (s.fdList t).any fun e => mem e.fileName == some name, s) := by
  induction ts with
  | nil => rfl
  | cons t ts ih =>
    unfold referredLoop
    rw [run_bind_ok (readFdList_run (hts t mem_cons_self)),
      run_bind_ok (referredIn_run (h t mem_cons_self) name s), any_cons]
    cases (s.fdList t).any fun e => mem e.fileName == some name with
    | true => rfl
    | false =>
      exact ih (fun t' ht' => hts t' (mem_cons_of_mem _ ht')) fun t' ht' => h t' (mem_cons_of_mem _ ht')

theorem alreadyLoop_run (hfd : fd ≠ minusOne) (h : ∀ rf ∈ l, (mem rf.fileName).isSome)
    (name : Name) (s : Sys) : (alreadyLoop mem t name fd l).run s =
      .ok (l.any fun rf => rf.fd == fd && mem rf.fileName == some name && t == rf.t, s) := by
  induction l with
  | nil => rfl
  | cons rf rest ih =>
    have ih' := ih fun rf' hrf' => h rf' (mem_cons_of_mem _ hrf')
    obtain ⟨n, hn⟩ := Option.isSome_iff_exists.1 (h rf mem_cons_self)
    unfold alreadyLoop
    rw [any_cons, hn]
    by_cases hrf : rf.fd = fd
    · rw [if_pos (.inr hrf), run_bind_ok (readName_run hn s)]
      by_cases he : n = name ∧ t = rf.t
      · rw [if_pos he, hrf, he.1, ← he.2, beq_self_eq_true, beq_self_eq_true, beq_self_eq_true]
        rfl
      · have hne : (rf.fd == fd && some n == some name && t == rf.t) = false := by
          rw [Bool.eq_false_iff, ne_eq, Bool.and_eq_true, Bool.and_eq_true, beq_iff_eq, beq_iff_eq, beq_iff_eq]
          rintro ⟨⟨-, h1⟩, h2⟩
          exact he ⟨Option.some.inj h1, h2⟩
        rw [if_neg he, ih', hne, Bool.false_or]
    · have hne : (rf.fd == fd) = false := beq_false_of_ne hrf
      rw [if_neg fun ho => ho.elim hfd hrf, ih', hne, Bool.false_and, Bool.false_and, Bool.false_or]

/-! ## Registering descriptors for removal -/

/-- The list after one descriptor was registered. -/
def registerOne (mem : Memory) (t file : ℕ) (name : Name) (fd : ℕ) (l : List RemovingFile) : List RemovingFile :=
  if l.any fun rf => rf.fd == fd && mem rf.fileName == some name && t == rf.t then l else l ++ [⟨file, fd, t⟩]

/-- The list after `is_referred` went through the descriptors of the caller. -/
def register (mem : Memory) (t file : ℕ) (name : Name) : List FdElem → List RemovingFile → List RemovingFile
  | [], l => l
  | e :: rest, l =>
    register mem t file name rest (if mem e.fileName = some name then registerOne mem t file name e.fd l else l)

theorem addRemoving_run (hm : s.fs.MemoryOk) (hfd : fd ≠ minusOne) (h : ∀ rf ∈ s.removingList, (mem rf.fileName).isSome) :
    (addRemoving mem t file name fd).run s =
      .ok ((), s.withRemovingList (registerOne mem t file name fd s.removingList)) := by
  unfold addRemoving alreadyInRemovingList registerOne
  rw [bind_assoc, run_bind_get, run_bind_ok (alreadyLoop_run hfd h name s)]
  split_ifs with hal
  · rfl
  · rw [run_bind_ok (onFs_run (malloc_run hm)), if_pos rfl]
    rfl

theorem mem_registerOne (hrf : rf ∈ registerOne mem t file name fd l) :
    rf ∈ l ∨ rf = ⟨file, fd, t⟩ := by
  unfold registerOne at hrf
  split_ifs at hrf
  · exact .inl hrf
  · exact (mem_append.1 hrf).imp id mem_singleton.1

theorem subset_registerOne (hrf : rf ∈ l) : rf ∈ registerOne mem t file name fd l := by
  unfold registerOne
  split_ifs
  · exact hrf
  · exact mem_append_left _ hrf

theorem registerOne_mem (hfile : mem file = some name) :
    ∃ rf ∈ registerOne mem t file name fd l, rf.fd = fd ∧ mem rf.fileName = some name := by
  unfold registerOne
  split_ifs with hal
  · obtain ⟨rf, hrf, hp⟩ := any_eq_true.1 hal
    rw [Bool.and_eq_true, Bool.and_eq_true, beq_iff_eq, beq_iff_eq] at hp
    exact ⟨rf, hrf, hp.1⟩
  · exact ⟨⟨file, fd, t⟩, mem_append_right _ (mem_singleton_self _), rfl, hfile⟩

theorem registerOne_nodup (h : (l.map RemovingFile.fd).Nodup)
    (hown : ∀ rf ∈ l, rf.fd = fd → mem rf.fileName = some name ∧ t = rf.t) :
    ((registerOne mem t file name fd l).map RemovingFile.fd).Nodup := by
  unfold registerOne
  split_ifs with hal
  · exact h
  · rw [map_append, nodup_append]
    refine ⟨h, nodup_singleton _, fun x hx y hy => ?_⟩
    obtain ⟨rf, hrf, rfl⟩ := mem_map.1 hx
    rw [map_singleton, mem_singleton] at hy
    rintro rfl
    obtain ⟨h1, h2⟩ := hown rf hrf hy
    refine hal (any_eq_true.2 ⟨rf, hrf, ?_⟩)
    rw [Bool.and_eq_true, Bool.and_eq_true, beq_iff_eq, beq_iff_eq, beq_iff_eq]
    exact ⟨⟨hy, h1⟩, h2⟩

variable {rs : List RemovingFile}

theorem mem_register {l : List FdElem} (hrf : rf ∈ register mem t file name l rs) :
    rf ∈ rs ∨ ∃ e ∈ l, mem e.fileName = some name ∧ rf = ⟨file, e.fd, t⟩ := by
  induction l generalizing rs with
  | nil => exact .inl hrf
  | cons e rest ih =>
    rcases ih hrf with h | ⟨e', he', h⟩
    · split_ifs at h with hn
      · rcases mem_registerOne h with h | h
        · exact .inl h
        · exact .inr ⟨e, mem_cons_self, hn, h⟩
      · exact .inl h
    · exact .inr ⟨e', mem_cons_of_mem _ he', h⟩

theorem subset_register {l : List FdElem} (hrf : rf ∈ rs) :
    rf ∈ register mem t file name l rs := by
  induction l generalizing rs with
  | nil => exact hrf
  | cons e rest ih =>
    refine ih ?_
    split_ifs
    · exact subset_registerOne hrf
    · exact hrf

theorem register_mem {l : List FdElem} (hfile : mem file = some name) (he : e ∈ l)
    (hn : mem e.fileName = some name) :
    ∃ rf ∈ register mem t file name l rs, rf.fd = e.fd ∧ mem rf.fileName = some name := by
  induction l generalizing rs with
  | nil => cases he
  | cons e' rest ih =>
    unfold register
    rcases mem_cons.1 he with rfl | he
    · obtain ⟨rf, hrf, h⟩ := registerOne_mem hfile
      refine ⟨rf, subset_register ?_, h⟩
      rwa [if_pos hn]
    · exact ih he

theorem register_nodup {l : List FdElem} (hfile : mem file = some name)
    (h : (rs.map RemovingFile.fd).Nodup)
    (hown : ∀ rf ∈ rs, ∀ e ∈ l, mem e.fileName = some name → rf.fd = e.fd → mem rf.fileName = some name ∧ t = rf.t) :
    ((register mem t file name l rs).map RemovingFile.fd).Nodup := by
  induction l generalizing rs with
  | nil => exact h
  | cons e rest ih =>
    refine ih ?_ fun rf hrf e' he' hn hfd => ?_
    · split_ifs with hn
      · exact registerOne_nodup h fun rf hrf => hown rf hrf e mem_cons_self hn
      · exact h
    · split_ifs at hrf with hn'
      · rcases mem_registerOne hrf with hrf | rfl
        · exact hown rf hrf e' (mem_cons_of_mem _ he') hn hfd
        · exact ⟨hfile, rfl⟩
      · exact hown rf hrf e' (mem_cons_of_mem _ he') hn hfd

theorem registerLoop_run (hm : s.fs.MemoryOk) (hfile : mem file = some name) {l : List FdElem}
    (hl : ∀ e ∈ l, (mem e.fileName).isSome ∧ e.fd ≠ minusOne) (h : ∀ rf ∈ s.removingList, (mem rf.fileName).isSome)
    (b : Bool) : (registerLoop mem t file name l b).run s =
      .ok (b || l.any fun e => mem e.fileName == some name,
        s.withRemovingList (register mem t file name l s.removingList)) := by
  induction l generalizing s b with
  | nil =>
    rw [any_nil, Bool.or_false]
    rfl
  | cons e rest ih =>
    have hrest : ∀ e ∈ rest, (mem e.fileName).isSome ∧ e.fd ≠ minusOne :=
      fun e' he' => hl e' (mem_cons_of_mem _ he')
    obtain ⟨hsome, hfd⟩ := hl e mem_cons_self
    obtain ⟨n, hn⟩ := Option.isSome_iff_exists.1 hsome
    unfold registerLoop register
    rw [run_bind_ok (readName_run hn s), any_cons, hn]
    by_cases he : n = name
    · rw [if_pos he, if_pos (congrArg some he), he, beq_self_eq_true, Bool.true_or, Bool.or_true,
        run_bind_ok (addRemoving_run hm hfd h)]
      refine (ih (s := s.withRemovingList (registerOne mem t file name e.fd s.removingList)) hm hrest
        (fun rf hrf => ?_) true).trans ?_
      · rcases mem_registerOne hrf with hrf | rfl
        · exact h rf hrf
        · rw [hfile]
          rfl
      · rw [Bool.true_or]
        rfl
    · have hne : (some n == some name) = false := beq_false_of_ne fun h => he (Option.some.inj h)
      rw [if_neg he, if_neg fun h => he (Option.some.inj h), hne, Bool.false_or]
      exact ih hm hrest h b

/-! ## The end of `close` -/

/-- The entry of a descriptor on the `removing_list`. -/
def IsEntry (t fd : ℕ) (rf : RemovingFile) : Bool := rf.fd == fd && some t == some rf.t

inductive RemovedClosed (mem : Memory) (t fd : ℕ) (s : Sys) : Sys → Prop
  | none : s.removingList.find? (IsEntry t fd) = none → RemovedClosed mem t fd s s
  | rest {rf : RemovingFile} : s.removingList.find? (IsEntry t fd) = some rf →
      ((s.removingList.eraseP (IsEntry t fd)).takeWhile (·.fd == minusOne)).length ≠
        (s.removingList.eraseP (IsEntry t fd)).length →
      RemovedClosed mem t fd s (s.withRemovingList (s.removingList.eraseP (IsEntry t fd)))
  | last {rf : RemovingFile} {n : Name} {b : Bool} {fs : Fs} : s.removingList.find? (IsEntry t fd) = some rf →
      ((s.removingList.eraseP (IsEntry t fd)).takeWhile (·.fd == minusOne)).length =
        (s.removingList.eraseP (IsEntry t fd)).length →
      mem rf.fileName = some n → (filesysRemove n).run s.fs = .ok (b, fs) →
      RemovedClosed mem t fd s ((s.withRemovingList (s.removingList.eraseP (IsEntry t fd))).withFs fs)

theorem removeClosed_spec (h : (removeClosed mem (some t) fd).run s = .ok ((), s')) : RemovedClosed mem t fd s s' := by
  unfold removeClosed at h
  rw [run_bind_get] at h
  cases hfind : s.removingList.find? (IsEntry t fd) with
  | none =>
    erw [hfind] at h
    obtain ⟨-, rfl⟩ := ok_inj h
    exact .none hfind
  | some rf =>
    erw [hfind] at h
    obtain ⟨_, s1, hmod, hrest⟩ := ok_of_run_bind h
    obtain ⟨-, rfl⟩ := ok_inj hmod
    split_ifs at hrest with hlen
    · obtain ⟨n, s2, hread, hrest⟩ := ok_of_run_bind hrest
      obtain ⟨hname, rfl⟩ := ok_of_readName hread
      obtain ⟨b, s3, hfs, hend⟩ := ok_of_run_bind hrest
      obtain ⟨fs, hremove, rfl⟩ := ok_of_onFs hfs
      obtain ⟨-, rfl⟩ := ok_inj hend
      exact .last hfind hlen hname hremove
    · obtain ⟨-, rfl⟩ := ok_inj hrest
      exact .rest hfind hlen

end Pintos.Files
