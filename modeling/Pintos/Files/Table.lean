/-
  The table of descriptors.

  What `open` and `close` can do is said once, in `Opened` and `close_run`.  `Table` is the invariant of the
  lists: descriptors are distinct, and exactly the threads with descriptors have a stub.
-/
import Pintos.Files.Descriptors
import Pintos.Fs.Extents
import Pintos.Lib.Steps

namespace Pintos.Files

open Lib Prog Function List

variable {s s' : Sys} {mem : Memory} {t fd file : ℕ} {e : FdElem} {name : Name} {α : Type}

/-! ## Running on the file system -/

variable {a : α}

theorem onFs_run {x : FsM α} {fs : Fs} (h : x.run s.fs = .ok (a, fs)) :
    (onFs x).run s = .ok (a, s.withFs fs) := by
  unfold onFs
  rw [run_bind_get, h]
  rfl

theorem ok_of_onFs {x : FsM α} (h : (onFs x).run s = .ok (a, s')) :
    ∃ fs, x.run s.fs = .ok (a, fs) ∧ s' = s.withFs fs := by
  unfold onFs at h
  rw [run_bind_get] at h
  cases hx : x.run s.fs with
  | error e => rw [hx] at h; cases h
  | ok r =>
    rw [hx] at h
    cases h
    exact ⟨r.2, rfl, rfl⟩

theorem onFs_malloc (s : Sys) :
    (onFs malloc).run s = .ok (s.fs.memory 0, s.withFs { s.fs with memory := fun n => s.fs.memory (n + 1) }) :=
  onFs_run rfl

theorem readName_run (h : mem file = some name) (s : Sys) : (readName mem file).run s = .ok (name, s) := by
  unfold readName
  rw [h]
  rfl

theorem ok_of_readName (h : (readName mem file).run s = .ok (name, s')) : mem file = some name ∧ s' = s := by
  unfold readName at h
  cases hm : mem file with
  | none => rw [hm] at h; cases h
  | some n =>
    rw [hm] at h
    cases h
    exact ⟨rfl, rfl⟩

theorem readFdList_run (h : t ∈ s.allList) : (readFdList t).run s = .ok (s.fdList t, s) := by
  unfold readFdList
  rw [run_bind_get, if_pos h]
  rfl

/-! ## What calls do not change -/

section
variable {γ : Type} {v : Sys → γ}

theorem keeps_readName (mem : Memory) (p : ℕ) : Prog.Keeps v (readName mem p) := by
  unfold readName
  cases mem p with
  | none => exact keeps_throw _
  | some n => exact keeps_pure n

theorem keeps_readFdList (t : ℕ) : Prog.Keeps v (readFdList t) :=
  keeps_get.bind fun _ => (keeps_pure _).ite (keeps_throw _)

theorem keeps_getFileP (fd : ℕ) : Prog.Keeps v (getFileP fd) := by
  have hloop : ∀ ts, Prog.Keeps v (getFileLoop fd ts) := by
    intro ts
    induction ts with
    | nil => exact keeps_pure none
    | cons t ts ih =>
      refine (keeps_readFdList t).bind fun l => ?_
      cases l.find? (·.fd == fd) with
      | none => exact ih
      | some e => exact keeps_pure _
  exact (keeps_pure none).ite (keeps_get.bind fun s => hloop s.fdsLl)

theorem keeps_isRemoving (mem : Memory) (name : Name) (l : List RemovingFile) : Prog.Keeps v (isRemoving mem name l) := by
  induction l with
  | nil => exact keeps_pure false
  | cons rf rest ih => exact (keeps_readName mem rf.fileName).bind fun _ => (keeps_pure true).ite ih

theorem keeps_alreadyInRemovingList (mem : Memory) (t : ℕ) (name : Name) (fd : ℕ) :
    Prog.Keeps v (alreadyInRemovingList mem t name fd) := by
  have hloop : ∀ l, Prog.Keeps v (alreadyLoop mem t name fd l) := by
    intro l
    induction l with
    | nil => exact keeps_pure false
    | cons rf rest ih =>
      exact ((keeps_readName mem rf.fileName).bind fun _ => (keeps_pure true).ite ih).ite ih
  exact keeps_get.bind fun s => hloop s.removingList

theorem keeps_referredIn (mem : Memory) (name : Name) (l : List FdElem) : Prog.Keeps v (referredIn mem name l) := by
  induction l with
  | nil => exact keeps_pure false
  | cons e rest ih => exact (keeps_readName mem e.fileName).bind fun _ => (keeps_pure true).ite ih

theorem keeps_referredLoop (mem : Memory) (name : Name) (ts : List ℕ) : Prog.Keeps v (referredLoop mem name ts) := by
  induction ts with
  | nil => exact keeps_pure false
  | cons t ts ih =>
    exact (keeps_readFdList t).bind fun l => (keeps_referredIn mem name l).bind fun _ => (keeps_pure true).ite ih

variable (hfs : ∀ s fs, v (s.withFs fs) = v s)
include hfs

theorem keeps_onFs (x : FsM α) : Prog.Keeps v (onFs x) := by
  intro s a s' h
  obtain ⟨fs, -, rfl⟩ := ok_of_onFs h
  exact hfs s fs

theorem keeps_use {u : Use} (hu : u ≠ .close) (mem : Memory) (fd : ℕ) : Prog.Keeps v (u.exec mem fd) := by
  cases u with
  | close => exact absurd rfl hu
  | read buffer length keys =>
    refine Prog.Keeps.bind (.ite (.ite (keeps_pure _) ?_) (keeps_pure _)) fun r => keeps_pure _
    refine (keeps_getFileP fd).bind fun f => ?_
    cases f with
    | none => exact keeps_pure _
    | some f => exact (keeps_onFs hfs _).bind fun bytes => keeps_pure _
  | write buffer bytes length =>
    refine Prog.Keeps.bind (.ite (.ite (keeps_pure _) ?_) (keeps_pure _)) fun r => keeps_pure _
    refine (keeps_getFileP fd).bind fun f => ?_
    cases f with
    | none => exact keeps_pure _
    | some f => exact keeps_onFs hfs _
  | seek position =>
    refine Prog.Keeps.bind ((keeps_getFileP fd).bind fun f => ?_) fun r => keeps_pure _
    cases f with
    | none => exact keeps_pure _
    | some f => exact keeps_onFs hfs _
  | tell =>
    refine Prog.Keeps.bind ((keeps_getFileP fd).bind fun f => ?_) fun r => keeps_pure _
    cases f with
    | none => exact keeps_pure _
    | some f => exact keeps_onFs hfs _
  | filesize eax =>
    refine Prog.Keeps.bind ((keeps_getFileP fd).bind fun f => ?_) fun r => keeps_pure _
    cases f with
    | none => exact keeps_pure _
    | some f => exact (keeps_onFs hfs _).bind fun length => keeps_pure _

theorem keeps_create (mem : Memory) (file size : ℕ) : Prog.Keeps v (create mem file size) :=
  .ite ((keeps_readName mem file).bind fun _ => .ite (keeps_pure _) (.ite (keeps_pure _) (keeps_onFs hfs _)))
    (keeps_pure _)

variable (hrem : ∀ s l, v (s.withRemovingList l) = v s)
include hrem

theorem keeps_removeClosed (mem : Memory) (o : Option ℕ) (fd : ℕ) : Prog.Keeps v (removeClosed mem o fd) := by
  refine keeps_get.bind fun s => ?_
  cases s.removingList.find? fun rf => rf.fd == fd && o == some rf.t with
  | none => exact keeps_pure _
  | some rf =>
    refine (keeps_modify fun s => hrem s _).bind fun _ => .ite ?_ (keeps_pure _)
    exact (keeps_readName mem rf.fileName).bind fun n => (keeps_onFs hfs _).bind fun _ => keeps_pure _

theorem keeps_remove (mem : Memory) (t file : ℕ) : Prog.Keeps v (remove mem t file) := by
  have hadd : ∀ name fd, Prog.Keeps v (addRemoving mem t file name fd) := fun name fd =>
    (keeps_alreadyInRemovingList mem t name fd).bind fun _ => .ite (keeps_pure _)
      ((keeps_onFs hfs _).bind fun _ => .ite (keeps_modify fun s => hrem s _) (keeps_throw _))
  have hloop : ∀ name l b, Prog.Keeps v (registerLoop mem t file name l b) := by
    intro name l
    induction l with
    | nil => exact fun b => keeps_pure b
    | cons e rest ih =>
      exact fun b => (keeps_readName mem e.fileName).bind fun _ => .ite ((hadd name e.fd).bind fun _ => ih true) (ih b)
  refine (keeps_readName mem file).bind fun name => Prog.Keeps.bind ?_ fun _ => .ite (keeps_pure _) (keeps_onFs hfs _)
  refine keeps_get.bind fun s => (keeps_referredLoop mem name s.fdsLl).bind fun _ => .ite ?_ (keeps_pure _)
  refine (hloop name _ false).bind fun _ => .ite (keeps_pure _) ?_
  exact (hadd name minusOne).bind fun _ => keeps_pure _

end

theorem preserves_isReferred {P : Sys → Prop} (hmalloc : Prog.Preserves P (onFs malloc))
    (hput : ∀ u fd, P u → P (u.withRemovingList (u.removingList ++ [⟨file, fd, t⟩]))) :
    Prog.Preserves P (isReferred mem t file name) := by
  have hadd : ∀ fd, Prog.Preserves P (addRemoving mem t file name fd) := fun fd =>
    (keeps_alreadyInRemovingList mem t name fd).preserves.bind fun _ => .ite (keeps_pure _).preserves
      (hmalloc.bind fun _ => .ite (preserves_modify fun u hu => hput u fd hu) (keeps_throw _).preserves)
  have hloop : ∀ l b, Prog.Preserves P (registerLoop mem t file name l b) := by
    intro l
    induction l with
    | nil => exact fun b => (keeps_pure b).preserves
    | cons e rest ih =>
      exact fun b => (keeps_readName mem e.fileName).preserves.bind fun _ => .ite ((hadd e.fd).bind fun _ => ih true) (ih b)
  refine keeps_get.preserves.bind fun u => (keeps_referredLoop mem name u.fdsLl).preserves.bind fun _ =>
    Prog.Preserves.ite ((hloop _ false).bind fun _ => .ite (keeps_pure _).preserves ?_) (keeps_pure _).preserves
  exact (hadd minusOne).bind fun _ => (keeps_pure _).preserves

theorem isReferred_fs {r : Bool} (hm : s.fs.MemoryOk) (h : (isReferred mem t file name).run s = .ok (r, s')) : s'.fs = s.fs := by
  have hmalloc : Prog.Preserves (fun u : Sys => u.fs = s.fs) (onFs malloc) := by
    intro u b v hu hon
    obtain ⟨fs, hrun, rfl⟩ := ok_of_onFs hon
    rw [show u.fs = s.fs from hu, malloc_run hm] at hrun
    exact (ok_inj hrun).2.symm
  exact preserves_isReferred hmalloc (fun _ _ hu => hu) s r s' rfl h

/-- What `Table` is about, with the counter and the log. -/
structure SameTable (s s' : Sys) : Prop where
  allList : s'.allList = s.allList
  fdList : s'.fdList = s.fdList
  fdsLl : s'.fdsLl = s.fdsLl
  globalFd : s'.globalFd = s.globalFd
  log : s'.log = s.log

theorem SameTable.trans {u : Sys} (h : SameTable s s') (h' : SameTable s' u) : SameTable s u :=
  ⟨h'.allList.trans h.allList, h'.fdList.trans h.fdList, h'.fdsLl.trans h.fdsLl, h'.globalFd.trans h.globalFd,
    h'.log.trans h.log⟩

theorem SameTable.of_keeps {x : SysM α}
    (hk : Prog.Keeps (fun s : Sys => (s.allList, s.fdList, s.fdsLl, s.globalFd, s.log)) x) (h : x.run s = .ok (a, s')) :
    SameTable s s' := by
  have he := hk s a s' h
  simp only [Prod.mk.injEq] at he
  exact ⟨he.1, he.2.1, he.2.2.1, he.2.2.2.1, he.2.2.2.2⟩

/-! ## What `open` does -/

/-- Some answers of `malloc` are used up. -/
def Sys.afterMallocs (s : Sys) (k : ℕ) : Sys := s.withFs { s.fs with memory := fun n => s.fs.memory (n + k) }

/-- A new descriptor in the list of its thread, with a stub if it is the first. -/
def Sys.added (s : Sys) (t : ℕ) (e : FdElem) : Sys :=
  (s.withFdList t (s.fdList t ++ [e])).withFdsLl (if s.fdList t = [] then s.fdsLl ++ [t] else s.fdsLl)

inductive Added (s : Sys) (t fd f file : ℕ) : Sys → Prop
  | full : threadFilesMax ≤ (s.fdList t).length → Added s t fd f file s
  | noMemory : (s.fdList t).length < threadFilesMax → s.fs.memory 0 = false → Added s t fd f file (s.afterMallocs 1)
  | added {k} : (s.fdList t).length < threadFilesMax → Added s t fd f file ((s.added t ⟨fd, f, file⟩).afterMallocs k)

theorem addFd_spec {f : ℕ} (h : (addFd t fd f file).run s = .ok ((), s')) : Added s t fd f file s' := by
  unfold addFd threadAddFd at h
  obtain ⟨added, s1, hadd, hstub⟩ := ok_of_run_bind h
  rw [run_bind_get] at hadd
  split_ifs at hadd with hlen
  · rw [run_bind_ok (onFs_malloc s)] at hadd
    cases hmem : s.fs.memory 0 with
    | false =>
      rw [hmem] at hadd
      cases hadd
      obtain ⟨-, rfl⟩ := ok_inj hstub
      exact .noMemory hlen hmem
    | true =>
      rw [hmem, if_pos rfl, run_bind_modify] at hadd
      cases hadd
      set s2 := (s.afterMallocs 1).withFdList t (s.fdList t ++ [⟨fd, f, file⟩]) with hs2
      change StateT.run (if (s2.fdList t).length = 1 then _ else _) s2 = _ at hstub
      have hself : s2.fdList t = s.fdList t ++ [⟨fd, f, file⟩] := update_self ..
      rw [hself, length_append] at hstub
      -- the stub
      split_ifs at hstub with hone
      · have hnil : s.fdList t = [] := eq_nil_of_length_eq_zero (by simpa using hone)
        rw [run_bind_ok (onFs_malloc s2)] at hstub
        split_ifs at hstub with hm
        · obtain ⟨-, rfl⟩ := ok_inj hstub
          have h2 : Added s t fd f file ((s.added t ⟨fd, f, file⟩).afterMallocs 2) := .added hlen
          unfold Sys.added at h2
          rwa [if_pos hnil] at h2
        · cases hstub
      · have hne : s.fdList t ≠ [] := by
          rintro hnil
          rw [hnil] at hone
          exact hone rfl
        obtain ⟨-, rfl⟩ := ok_inj hstub
        have h1 : Added s t fd f file ((s.added t ⟨fd, f, file⟩).afterMallocs 1) := .added hlen
        unfold Sys.added at h1
        rwa [if_neg hne] at h1
  · cases hadd
    obtain ⟨-, rfl⟩ := ok_inj hstub
    exact .full (by omega)

/-- A descriptor is issued; only those from 2 on are added. -/
inductive Issued (s : Sys) (t f file : ℕ) : Sys → Prop
  | reserved : s.globalFd < 2 → Issued s t f file s.nextFd
  | added {u : Sys} : 2 ≤ s.globalFd → Added s.nextFd t s.globalFd f file u → Issued s t f file u

/-- What a call of `open` does and returns. -/
inductive Opened (mem : Memory) (t file : ℕ) (s : Sys) : ℕ → Sys → Prop
  | empty {n : Name} : mem file = some n → n.val.length = 0 → Opened mem t file s minusOne s
  | hidden {n : Name} : mem file = some n → (isRemoving mem n s.removingList).run s = .ok (true, s) →
      Opened mem t file s minusOne s
  | absent {n : Name} {fs : Fs} : mem file = some n → (isRemoving mem n s.removingList).run s = .ok (false, s) →
      (filesysOpen n).run s.fs = .ok (none, fs) → Opened mem t file s minusOne (s.withFs fs)
  | issued {n : Name} {fs : Fs} {f : ℕ} {u : Sys} : mem file = some n → n.val.length ≠ 0 →
      (isRemoving mem n s.removingList).run s = .ok (false, s) →
      (filesysOpen n).run s.fs = .ok (some f, fs) → Issued (s.withFs fs) t f file u →
      Opened mem t file s s.globalFd u

theorem open_spec {r : ℕ} (h : (open_ mem t file).run s = .ok (r, s')) : Opened mem t file s r s' := by
  obtain ⟨name, s1, hread, hrest⟩ := ok_of_run_bind h
  obtain ⟨hname, rfl⟩ := ok_of_readName hread
  split_ifs at hrest with hempty
  · cases hrest
    exact .empty hname hempty
  rw [run_bind_get] at hrest
  obtain ⟨removing, s2, hrem, hrest⟩ := ok_of_run_bind hrest
  obtain rfl : s2 = s1 := keeps_isRemoving (v := id) mem name _ _ _ _ hrem
  cases removing with
  | true =>
    cases hrest
    exact .hidden hname hrem
  | false =>
    obtain ⟨f, s3, honFs, hrest⟩ := ok_of_run_bind hrest
    obtain ⟨fs, hopen, rfl⟩ := ok_of_onFs honFs
    cases f with
    | none =>
      cases hrest
      exact .absent hname hrem hopen
    | some f =>
      rw [run_bind_modify] at hrest
      split_ifs at hrest with h2
      · obtain ⟨_, s4, hadd, hrest⟩ := ok_of_run_bind hrest
        cases hrest
        exact .issued hname hempty hrem hopen (.added h2 (addFd_spec hadd))
      · cases hrest
        exact .issued hname hempty hrem hopen (.reserved (show s2.globalFd < 2 by omega))

theorem Opened.frame {r : ℕ} (h : Opened mem t file s r s') :
    s'.allList = s.allList ∧ s'.removingList = s.removingList ∧ s'.log = s.log := by
  cases h with
  | empty | hidden | absent => exact ⟨rfl, rfl, rfl⟩
  | issued _ _ _ _ hi =>
    cases hi with
    | reserved => exact ⟨rfl, rfl, rfl⟩
    | added _ ha => cases ha <;> exact ⟨rfl, rfl, rfl⟩

/-! ## The invariant of the lists -/

structure Table (s : Sys) : Prop where
  threads_nodup : s.allList.Nodup
  listed : ∀ {t}, s.fdList t ≠ [] → t ∈ s.allList
  two_le : ∀ {t e}, e ∈ s.fdList t → 2 ≤ e.fd
  nodup : ∀ t, ((s.fdList t).map FdElem.fd).Nodup
  owner : ∀ {t t' e e'}, e ∈ s.fdList t → e' ∈ s.fdList t' → e.fd = e'.fd → t = t'
  length_le : ∀ t, (s.fdList t).length ≤ threadFilesMax
  stubs_nodup : s.fdsLl.Nodup
  stub_iff : ∀ t, t ∈ s.fdsLl ↔ s.fdList t ≠ []

/-- No thread has the descriptor. -/
def Sys.Free (s : Sys) (fd : ℕ) : Prop := ∀ t, ∀ e ∈ s.fdList t, e.fd ≠ fd

theorem getFileLoop_run {ts : List ℕ} (h : ∀ t ∈ ts, t ∈ s.allList) : (getFileLoop fd ts).run s =
    .ok (ts.findSome? fun t => ((s.fdList t).find? (·.fd == fd)).map FdElem.f, s) := by
  induction ts with
  | nil => rfl
  | cons t ts ih =>
    unfold getFileLoop
    rw [run_bind_ok (readFdList_run (h t mem_cons_self)), findSome?_cons]
    cases (s.fdList t).find? (·.fd == fd) with
    | some e => rfl
    | none => exact ih fun t' ht' => h t' (mem_cons_of_mem _ ht')

theorem findSome?_eq_of_unique {β : Type} {l : List α} {g : α → Option β} {b : β} (ha : a ∈ l) (hb : g a = some b)
    (hu : ∀ a' ∈ l, ∀ b', g a' = some b' → b' = b) : l.findSome? g = some b := by
  cases hl : l.findSome? g with
  | none =>
    rw [findSome?_eq_none_iff] at hl
    rw [hl a ha] at hb
    cases hb
  | some b' =>
    obtain ⟨a', ha', hb'⟩ := exists_of_findSome?_eq_some hl
    rw [hu a' ha' b' hb']

theorem mem_eraseP_fd {l : List FdElem} (h : (l.map FdElem.fd).Nodup) (fd : ℕ) (e : FdElem) :
    e ∈ l.eraseP (·.fd == fd) ↔ e ∈ l ∧ e.fd ≠ fd := by
  induction l with
  | nil => simp
  | cons a l ih =>
    rw [map_cons, nodup_cons] at h
    by_cases ha : a.fd = fd
    · have hl : ∀ e ∈ l, e.fd ≠ fd := fun e he hfd => h.1 (mem_map.2 ⟨e, he, hfd.trans ha.symm⟩)
      rw [eraseP_cons_of_pos (by simpa using ha), mem_cons]
      refine ⟨fun he => ⟨.inr he, hl e he⟩, ?_⟩
      rintro ⟨rfl | he, hne⟩
      · exact absurd ha hne
      · exact he
    · rw [eraseP_cons_of_neg (by simpa using ha), mem_cons, mem_cons, ih h.2]
      refine ⟨?_, ?_⟩
      · rintro (rfl | ⟨he, hne⟩)
        · exact ⟨.inl rfl, ha⟩
        · exact ⟨.inr he, hne⟩
      · rintro ⟨rfl | he, hne⟩
        · exact .inl rfl
        · exact .inr ⟨he, hne⟩

/-- What is left of the lists when a descriptor is closed. -/
def Sys.dropped (s : Sys) (t fd : ℕ) : Sys :=
  (s.withFdList t ((s.fdList t).eraseP (·.fd == fd))).withFdsLl
    (if ((s.fdList t).eraseP (·.fd == fd)).isEmpty then s.fdsLl.erase t else s.fdsLl)

theorem dropFd_run (s : Sys) (t fd : ℕ) : (dropFd t fd).run s = .ok ((), s.dropped t fd) := by
  unfold dropFd threadRemoveFd
  rw [run_bind_modify, run_modify]
  set u := s.withFdList t ((s.fdList t).eraseP (·.fd == fd)) with hu
  have hself : u.fdList t = (s.fdList t).eraseP (·.fd == fd) := update_self ..
  unfold Sys.dropped
  rw [hself]
  split_ifs <;> rfl

namespace Table

theorem congr (h : Table s) (h1 : s'.allList = s.allList) (h2 : s'.fdList = s.fdList) (h3 : s'.fdsLl = s.fdsLl) :
    Table s' := by
  constructor
  · exact h1 ▸ h.threads_nodup
  · rw [h1, h2]; exact h.listed
  · rw [h2]; exact h.two_le
  · rw [h2]; exact h.nodup
  · rw [h2]; exact h.owner
  · rw [h2]; exact h.length_le
  · exact h3 ▸ h.stubs_nodup
  · rw [h2, h3]; exact h.stub_iff

theorem boot (fs : Fs) {threads : List ℕ} (h : threads.Nodup) : Table (.boot fs threads) where
  threads_nodup := h
  listed h := absurd rfl h
  two_le h := by cases h
  nodup _ := nodup_nil
  owner h := by cases h
  length_le _ := Nat.zero_le _
  stubs_nodup := nodup_nil
  stub_iff _ := ⟨nofun, fun h => absurd rfl h⟩

section

variable (h : Table s)
include h

theorem inj {e' : FdElem} (he : e ∈ s.fdList t) (he' : e' ∈ s.fdList t) (hfd : e.fd = e'.fd) : e = e' :=
  inj_on_of_nodup_map (h.nodup t) he he' hfd

theorem mem_stubs (he : e ∈ s.fdList t) : t ∈ s.fdsLl := (h.stub_iff t).2 (ne_nil_of_mem he)

theorem mem_threads (he : e ∈ s.fdList t) : t ∈ s.allList := h.listed (ne_nil_of_mem he)

theorem getFileP_run (hfd : 2 ≤ fd) : (getFileP fd).run s =
    .ok (s.fdsLl.findSome? fun t => ((s.fdList t).find? (·.fd == fd)).map FdElem.f, s) := by
  unfold getFileP
  rw [if_neg (by omega), run_bind_get,
    getFileLoop_run fun t ht => h.listed ((h.stub_iff t).1 ht)]

theorem getFileP_some (he : e ∈ s.fdList t) : (getFileP e.fd).run s = .ok (some e.f, s) := by
  rw [h.getFileP_run (h.two_le he)]
  have hfind : ∀ {t' e'}, (s.fdList t').find? (·.fd == e.fd) = some e' → e' = e := by
    intro t' e' hf
    have hmem := mem_of_find?_eq_some hf
    have hfd : e'.fd = e.fd := by simpa using find?_some hf
    obtain rfl := h.owner hmem he hfd
    exact h.inj hmem he hfd
  obtain ⟨e', hf⟩ : ∃ e', (s.fdList t).find? (·.fd == e.fd) = some e' := by
    rw [← Option.isSome_iff_exists, find?_isSome]
    exact ⟨e, he, by simp⟩
  rw [findSome?_eq_of_unique (h.mem_stubs he)]
  · rw [hf, hfind hf]
    rfl
  · intro t' _ b hb
    obtain ⟨e'', hf', rfl⟩ := Option.map_eq_some_iff.1 hb
    rw [hfind hf']

theorem getFileP_none (hfree : s.Free fd) : (getFileP fd).run s = .ok (none, s) := by
  by_cases h2 : 2 ≤ fd
  · rw [h.getFileP_run h2, findSome?_eq_none_iff.2]
    intro t _
    rw [find?_eq_none.2 fun e he => by simpa using hfree t e he]
    rfl
  · unfold getFileP
    rw [if_pos (by omega)]
    rfl

theorem getThreadByFd_some (he : e ∈ s.fdList t) : s.getThreadByFd e.fd = some t := by
  unfold Sys.getThreadByFd
  cases hf : s.allList.find? fun t => (s.fdList t).any (·.fd == e.fd) with
  | none =>
    have := find?_eq_none.1 hf t (h.mem_threads he)
    simp only [any_eq_true, beq_iff_eq, not_exists, not_and] at this
    exact absurd rfl (this e he)
  | some t' =>
    have hany := find?_some hf
    obtain ⟨e', he', hfd⟩ := any_eq_true.1 hany
    rw [h.owner he' he (by simpa using hfd)]

end

theorem getThreadByFd_none (hfree : s.Free fd) : s.getThreadByFd fd = none := by
  unfold Sys.getThreadByFd
  rw [find?_eq_none]
  intro t _ hany
  obtain ⟨e, he, hfd⟩ := any_eq_true.1 hany
  exact hfree t e he (by simpa using hfd)

theorem fdList_update (s : Sys) (t t' : ℕ) (l : List FdElem) :
    update s.fdList t l t' = if t' = t then l else s.fdList t' := update_apply ..

theorem added (h : Table s) (ht : t ∈ s.allList) (hlen : (s.fdList t).length < threadFilesMax) (h2 : 2 ≤ e.fd)
    (hfree : s.Free e.fd) : Table (s.added t e) := by
  have hmem : ∀ {t' e'}, e' ∈ (s.added t e).fdList t' → e' ∈ s.fdList t' ∨ t' = t ∧ e' = e := by
    intro t' e' he'
    change e' ∈ update s.fdList t (s.fdList t ++ [e]) t' at he'
    rw [fdList_update] at he'
    split_ifs at he' with htt
    · rw [htt, mem_append, mem_singleton] at *
      exact he'.imp id fun he' => ⟨rfl, he'⟩
    · exact .inl he'
  have hne : ∀ t', (s.added t e).fdList t' ≠ [] ↔ t' = t ∨ s.fdList t' ≠ [] := by
    intro t'
    change update s.fdList t (s.fdList t ++ [e]) t' ≠ [] ↔ _
    rw [fdList_update]
    split_ifs with htt
    · simp [htt]
    · simp [htt]
  refine ⟨h.threads_nodup, fun {t'} ht' => ?_, fun {t' e'} he' => ?_, fun t' => ?_, fun {t1 t2 e1 e2} h₁ h₂ hfd => ?_,
    fun t' => ?_, ?_, fun t' => ?_⟩
  · rcases (hne t').1 ht' with rfl | ht'
    · exact ht
    · exact h.listed ht'
  · rcases hmem he' with he' | ⟨-, rfl⟩
    · exact h.two_le he'
    · exact h2
  · change (map _ (update s.fdList t (s.fdList t ++ [e]) t')).Nodup
    rw [fdList_update]
    split_ifs with htt
    · rw [map_append, nodup_append]
      refine ⟨h.nodup t, nodup_singleton _, fun a ha b hb => ?_⟩
      obtain ⟨e', he', rfl⟩ := mem_map.1 ha
      rw [map_singleton, mem_singleton] at hb
      rw [hb]
      exact hfree t e' he'
    · exact h.nodup t'
  · rcases hmem h₁ with h1' | ⟨ht1, he1⟩ <;> rcases hmem h₂ with h2' | ⟨ht2, he2⟩
    · exact h.owner h1' h2' hfd
    · exact absurd (he2 ▸ hfd) (hfree _ _ h1')
    · exact absurd (he1 ▸ hfd.symm) (hfree _ _ h2')
    · rw [ht1, ht2]
  · change (update s.fdList t (s.fdList t ++ [e]) t').length ≤ _
    rw [fdList_update]
    split_ifs with htt
    · rwa [length_append, length_singleton]
    · exact h.length_le t'
  · change (if s.fdList t = [] then s.fdsLl ++ [t] else s.fdsLl).Nodup
    split_ifs with hnil
    · refine nodup_append.2 ⟨h.stubs_nodup, nodup_singleton _, fun a ha b hb => ?_⟩
      rw [mem_singleton.1 hb]
      rintro rfl
      exact (h.stub_iff a).1 ha hnil
    · exact h.stubs_nodup
  · rw [hne]
    change t' ∈ (if s.fdList t = [] then s.fdsLl ++ [t] else s.fdsLl) ↔ _
    split_ifs with hnil
    · rw [mem_append, mem_singleton, h.stub_iff, or_comm]
    · rw [h.stub_iff]
      refine ⟨.inr, ?_⟩
      rintro (rfl | ht')
      · exact hnil
      · exact ht'

theorem dropped (h : Table s) (t fd : ℕ) : Table (s.dropped t fd) := by
  set l := (s.fdList t).eraseP (·.fd == fd) with hl
  have hlist : ∀ t', (s.dropped t fd).fdList t' = if t' = t then l else s.fdList t' := fun t' => fdList_update s t t' l
  have hsub : ∀ t', ((s.dropped t fd).fdList t').Sublist (s.fdList t') := by
    intro t'
    rw [hlist]
    split_ifs with htt
    · rw [htt]
      exact eraseP_sublist
    · exact List.Sublist.refl _
  refine ⟨h.threads_nodup, fun {t'} ht' => h.listed fun hnil => ht' ?_, fun he' => h.two_le ((hsub _).subset he'),
    fun t' => (h.nodup t').sublist ((hsub t').map _),
    fun h₁ h₂ hfd => h.owner ((hsub _).subset h₁) ((hsub _).subset h₂) hfd,
    fun t' => (hsub t').length_le.trans (h.length_le t'), ?_, fun t' => ?_⟩
  · exact eq_nil_of_sublist_nil (hnil ▸ hsub t')
  · change (if l.isEmpty then s.fdsLl.erase t else s.fdsLl).Nodup
    split_ifs
    · exact h.stubs_nodup.erase t
    · exact h.stubs_nodup
  · change t' ∈ (if l.isEmpty then s.fdsLl.erase t else s.fdsLl) ↔ _
    rw [hlist]
    split_ifs with hempty htt htt
    · rw [htt, isEmpty_iff.1 hempty, h.stubs_nodup.mem_erase_iff]
      exact ⟨fun hm => absurd rfl hm.1, fun hm => absurd rfl hm⟩
    · rw [h.stubs_nodup.mem_erase_iff, h.stub_iff]
      exact ⟨fun hm => hm.2, fun hm => ⟨htt, hm⟩⟩
    · rw [htt, h.stub_iff]
      refine ⟨fun _ hnil => hempty (isEmpty_iff.2 hnil), fun hne hnil => hne ?_⟩
      rw [hl, hnil]
      rfl
    · exact h.stub_iff t'

theorem close_run (h : Table s) (he : e ∈ s.fdList t) : (Files.close mem e.fd).run s =
    (do onFs (fileClose e.f); removeClosed mem (some t) e.fd : SysM Unit).run (s.dropped t e.fd) := by
  unfold Files.close
  rw [run_bind_ok (h.getFileP_some he)]
  rw [run_bind_get, h.getThreadByFd_some he]
  rw [run_bind_ok (dropFd_run s t e.fd)]

theorem close_run_free (h : Table s) (hfree : s.Free fd) : (Files.close mem fd).run s = .ok ((), s) := by
  unfold Files.close
  rw [run_bind_ok (h.getFileP_none hfree)]
  rfl

/-- **`close`** takes the descriptor from the lists, if there is one. -/
theorem close_spec (h : Table s) (hrun : (Files.close mem fd).run s = .ok ((), s')) :
    (s.Free fd ∧ s' = s) ∨ ∃ t e, e ∈ s.fdList t ∧ e.fd = fd ∧ SameTable (s.dropped t fd) s' := by
  by_cases hfree : s.Free fd
  · rw [h.close_run_free hfree] at hrun
    exact .inl ⟨hfree, (ok_inj hrun).2.symm⟩
  · unfold Sys.Free at hfree
    push Not at hfree
    obtain ⟨t, e, he, rfl⟩ := hfree
    rw [h.close_run he] at hrun
    obtain ⟨_, s1, hclose, hrest⟩ := ok_of_run_bind hrun
    exact .inr ⟨t, e, he, rfl, (SameTable.of_keeps (keeps_onFs (fun _ _ => rfl) _) hclose).trans
      (SameTable.of_keeps (keeps_removeClosed (fun _ _ => rfl) (fun _ _ => rfl) mem (some t) e.fd) hrest)⟩

theorem close (h : Table s) (hrun : (Files.close mem fd).run s = .ok ((), s')) : Table s' := by
  rcases h.close_spec hrun with ⟨-, rfl⟩ | ⟨t, e, -, -, hs⟩
  · exact h
  · exact (h.dropped t fd).congr hs.allList hs.fdList hs.fdsLl

theorem of_added {f : ℕ} (h : Table s) (ht : t ∈ s.allList) (h2 : 2 ≤ fd) (hfree : s.Free fd)
    (hadd : Added s t fd f file s') : Table s' := by
  cases hadd with
  | full => exact h
  | noMemory => exact h.congr rfl rfl rfl
  | added hlen => exact (h.added ht hlen h2 hfree).congr rfl rfl rfl

theorem open_ {r : ℕ} (h : Table s) (ht : t ∈ s.allList) (hfree : s.Free s.globalFd) (ho : Opened mem t file s r s') :
    Table s' := by
  cases ho with
  | empty | hidden => exact h
  | absent => exact h.congr rfl rfl rfl
  | @issued _ fs _ _ _ _ _ _ hi =>
    cases hi with
    | reserved => exact h.congr rfl rfl rfl
    | added h2 hadd =>
      have h' : Table (s.withFs fs).nextFd := h.congr rfl rfl rfl
      exact h'.of_added ht h2 hfree hadd

theorem erase (h : Table s) (hnil : s.fdList t = []) : Table (s.withAllList (s.allList.erase t)) := by
  refine ⟨h.threads_nodup.erase t, fun {t'} ht' => ?_, h.two_le, h.nodup, h.owner, h.length_le, h.stubs_nodup, h.stub_iff⟩
  refine (h.threads_nodup.mem_erase_iff).2 ⟨?_, h.listed ht'⟩
  rintro rfl
  exact ht' hnil

theorem exit (h : Table s) (hnil : s.fdList t = []) (hrun : (Files.exit t).run s = .ok ((), s')) :
    Table s' ∧ s'.fdList = s.fdList ∧ s'.log = s.log := by
  obtain ⟨-, rfl⟩ := ok_inj hrun
  have hlist : update s.fdList t [] = s.fdList := by
    rw [← hnil]
    exact update_eq_self t s.fdList
  exact ⟨(h.erase hnil).congr rfl hlist rfl, hlist, rfl⟩

end Table

/-! ## Runs of `open` and `close` -/

theorem keeps_log (mem : Memory) (t : ℕ) (c : Call) : Prog.Keeps Sys.log (c.exec mem t) := by
  have hfs : ∀ (s : Sys) fs, (s.withFs fs).log = s.log := fun _ _ => rfl
  have hrem : ∀ (s : Sys) l, (s.withRemovingList l).log = s.log := fun _ _ => rfl
  cases c with
  | create file size => exact (keeps_create hfs mem file size).bind fun _ => keeps_pure _
  | remove file => exact (keeps_remove hfs hrem mem t file).bind fun _ => keeps_pure _
  | open_ file =>
    refine Prog.Keeps.bind (fun s r s' h => ?_) fun r => keeps_pure _
    exact (open_spec h).frame.2.2
  | exit =>
    refine Prog.Keeps.bind ?_ fun _ => keeps_pure _
    refine Prog.Keeps.bind ?_ fun _ => Prog.Keeps.bind ?_ fun _ => ?_ <;> exact keeps_modify fun _ => rfl
  | use fd u =>
    by_cases hu : u = .close
    · rw [hu]
      refine Prog.Keeps.bind ((keeps_getFileP fd).bind fun f => ?_) fun _ => keeps_pure _
      cases f with
      | none => exact keeps_pure _
      | some f =>
        refine keeps_get.bind fun s => ?_
        cases s.getThreadByFd fd with
        | none => exact (keeps_onFs hfs _).bind fun _ => keeps_removeClosed hfs hrem mem none fd
        | some t' =>
          refine Prog.Keeps.bind (fun s1 _ s2 h => ?_) fun _ =>
            (keeps_onFs hfs _).bind fun _ => keeps_removeClosed hfs hrem mem (some t') fd
          rw [dropFd_run] at h
          rw [← (ok_inj h).2]
          rfl
    · exact keeps_use hfs hu mem fd

variable {q : Request}

theorem step_spec (h : s.step q = some s') :
    q.t ∈ s.allList ∧ ∃ ret u, (q.call.exec q.mem q.t).run s = .ok (ret, u) ∧
      s' = u.record ⟨q.t, q.call, q.call.name q.mem, ret⟩ := by
  unfold Sys.step at h
  split_ifs at h with ht
  refine ⟨ht, ?_⟩
  cases hx : (q.call.exec q.mem q.t).run s with
  | error e => rw [hx] at h; cases h
  | ok r =>
    rw [hx] at h
    exact ⟨r.1, r.2, rfl, (Option.some.inj h).symm⟩

def Call.isOpenOrClose : Call → Bool
  | .open_ _ | .use _ .close => true
  | _ => false

theorem isOpenOrClose_cases {c : Call} (h : c.isOpenOrClose = true) : (∃ file, c = .open_ file) ∨ ∃ fd, c = .use fd .close := by
  unfold Call.isOpenOrClose at h
  split at h
  · exact .inl ⟨_, rfl⟩
  · exact .inr ⟨_, rfl⟩
  · cases h

/-- The runs of `open` and `close`. -/
def OpenOrClose (_ : Sys) (q : Request) : Prop := q.call.isOpenOrClose = true

instance (s : Sys) (q : Request) : Decidable (OpenOrClose s q) := inferInstanceAs (Decidable (_ = true))

/-- The number of calls of `open`. -/
def opens : List Event → ℕ
  | [] => 0
  | ⟨_, .open_ _, _, _⟩ :: log => opens log + 1
  | _ :: log => opens log

theorem opens_le_cons (ev : Event) (log : List Event) : opens log ≤ opens (ev :: log) := by
  rcases ev with ⟨_, c, _, _⟩
  cases c with
  | open_ file => exact Nat.le_succ _
  | _ => exact le_rfl

theorem opens_le_step (h : s.step q = some s') : opens s.log ≤ opens s'.log := by
  obtain ⟨-, ret, u, hrun, rfl⟩ := step_spec h
  rw [← keeps_log _ _ _ _ _ _ hrun]
  exact opens_le_cons _ _

/-- What is to be true of the table of descriptors. -/
structure TableOk (s : Sys) : Prop where
  fd_range : ∀ {t e}, t ∈ s.allList → e ∈ s.fdList t → 2 ≤ e.fd ∧ e.fd < s.globalFd
  fd_once : ((s.allList.flatMap s.fdList).map FdElem.fd).Nodup
  length_le : ∀ {t}, t ∈ s.allList → (s.fdList t).length ≤ 16
  stubs_nodup : s.fdsLl.Nodup
  stub_iff : ∀ t, t ∈ s.fdsLl ↔ t ∈ s.allList ∧ s.fdList t ≠ []
  found : ∀ {t e}, t ∈ s.allList → e ∈ s.fdList t →
    (getFileP e.fd).run s = .ok (some e.f, s) ∧ s.getThreadByFd e.fd = some t
  not_found : ∀ {fd}, (∀ t ∈ s.allList, ∀ e ∈ s.fdList t, e.fd ≠ fd) →
    (getFileP fd).run s = .ok (none, s) ∧ s.getThreadByFd fd = none

/-- The descriptors in use are below the next one. -/
structure Numbered (s : Sys) : Prop where
  table : Table s
  lt : ∀ {t e}, e ∈ s.fdList t → e.fd < s.globalFd
  two_le : 2 ≤ s.globalFd

namespace Numbered

theorem boot (fs : Fs) {threads : List ℕ} (h : threads.Nodup) : Numbered (.boot fs threads) := ⟨.boot fs h, nofun, le_rfl⟩

theorem free (h : Numbered s) : s.Free s.globalFd := fun _ _ he => (h.lt he).ne

theorem record (h : Numbered s) (ev : Event) : Numbered (s.record ev) := ⟨h.table.congr rfl rfl rfl, h.lt, h.two_le⟩

theorem added {f : ℕ} (h : Numbered s) (hwrap : s.globalFd + 1 < 2 ^ 32)
    (ha : Added s.nextFd t s.globalFd f file s') :
    s'.globalFd = s.globalFd + 1 ∧ ∀ {t' e}, e ∈ s'.fdList t' → e.fd < s'.globalFd := by
  have hnext : s.nextFd.globalFd = s.globalFd + 1 := Nat.mod_eq_of_lt hwrap
  have hold : ∀ {t' e}, e ∈ s.fdList t' → e.fd < s.nextFd.globalFd := by
    intro t' e he
    rw [hnext]
    exact (h.lt he).trans (Nat.lt_succ_self _)
  cases ha with
  | full => exact ⟨hnext, hold⟩
  | noMemory => exact ⟨hnext, hold⟩
  | added hlen =>
    refine ⟨hnext, fun {t' e} he => ?_⟩
    change e ∈ update s.fdList t (s.fdList t ++ [⟨s.globalFd, f, file⟩]) t' at he
    change e.fd < s.nextFd.globalFd
    rw [Table.fdList_update] at he
    split_ifs at he with htt
    · rcases mem_append.1 he with he | he
      · exact hold he
      · rw [mem_singleton.1 he, hnext]
        exact Nat.lt_succ_self _
    · exact hold he

theorem open_ {r : ℕ} (h : Numbered s) (hwrap : s.globalFd + 1 < 2 ^ 32) (ht : t ∈ s.allList)
    (ho : Opened mem t file s r s') : Numbered s' ∧ s'.globalFd ≤ s.globalFd + 1 := by
  have h2 := h.two_le
  have htable := h.table.open_ ht h.free ho
  cases ho with
  | empty | hidden | absent => exact ⟨⟨htable, h.lt, h2⟩, Nat.le_succ _⟩
  | @issued _ fs _ _ _ _ _ _ hi =>
    cases hi with
    | reserved hlt => exact absurd hlt (Nat.not_lt.2 h2)
    | added _ hadd =>
      have h' : Numbered (s.withFs fs) := ⟨h.table.congr rfl rfl rfl, h.lt, h2⟩
      obtain ⟨hglobal, hlt⟩ := h'.added hwrap hadd
      refine ⟨⟨htable, hlt, ?_⟩, ?_⟩
      · rw [hglobal]
        exact Nat.le_succ_of_le h2
      · rw [hglobal]
        rfl

theorem close (h : Numbered s) (hrun : (Files.close mem fd).run s = .ok ((), s')) : Numbered s' := by
  have htable := h.table.close hrun
  rcases h.table.close_spec hrun with ⟨-, rfl⟩ | ⟨t, e, -, -, hs⟩
  · exact h
  · refine ⟨htable, fun {t' e'} he' => ?_, ?_⟩
    · rw [hs.globalFd]
      rw [hs.fdList] at he'
      change e' ∈ update s.fdList t _ t' at he'
      rw [Table.fdList_update] at he'
      split_ifs at he' with htt
      · exact h.lt (mem_of_mem_eraseP he')
      · exact h.lt he'
    · rw [hs.globalFd]
      exact h.two_le

end Numbered

/-- Descriptors are issued in order, as long as their number does not wrap around. -/
structure Counted (s : Sys) : Prop extends Numbered s where
  le : s.globalFd ≤ 2 + opens s.log

theorem step_counted (h : Counted s) (hq : OpenOrClose s q) (hstep : s.step q = some s')
    (hopens : opens s'.log < 2 ^ 32 - 2) : Counted s' := by
  obtain ⟨ht, ret, u, hrun, rfl⟩ := step_spec hstep
  obtain ⟨t, mem, call⟩ := q
  rcases isOpenOrClose_cases hq with ⟨file, rfl⟩ | ⟨fd, rfl⟩
  · obtain ⟨r, u', hopen, hret⟩ := ok_of_run_bind hrun
    obtain ⟨-, rfl⟩ := ok_inj hret
    have ho := open_spec hopen
    have hlog := ho.frame.2.2
    have hopens' : opens u'.log + 1 < 2 ^ 32 - 2 := hopens
    have hle := h.le
    rw [hlog] at hopens'
    obtain ⟨h', hglobal⟩ := h.toNumbered.open_ (by omega) ht ho
    refine ⟨h'.record _, ?_⟩
    change u'.globalFd ≤ 2 + (opens u'.log + 1)
    rw [hlog]
    omega
  · obtain ⟨_, u', hclose, hret⟩ := ok_of_run_bind hrun
    obtain ⟨-, rfl⟩ := ok_inj hret
    refine ⟨(h.toNumbered.close hclose).record _, ?_⟩
    change u'.globalFd ≤ 2 + opens u'.log
    rcases h.table.close_spec hclose with ⟨-, rfl⟩ | ⟨_, _, -, -, hs⟩
    · exact h.le
    · rw [hs.globalFd, hs.log]
      exact h.le

theorem Counted.tableOk (h : Counted s) : TableOk s where
  fd_range _ he := ⟨h.table.two_le he, h.lt he⟩
  fd_once := by
    rw [map_flatMap, nodup_flatMap]
    refine ⟨fun t _ => h.table.nodup t, h.table.threads_nodup.imp fun {t t'} hne => ?_⟩
    intro fd hfd hfd'
    obtain ⟨e, he, rfl⟩ := mem_map.1 hfd
    obtain ⟨e', he', hee⟩ := mem_map.1 hfd'
    exact hne (h.table.owner he he' hee.symm)
  length_le _ := h.table.length_le _
  stubs_nodup := h.table.stubs_nodup
  stub_iff t := (h.table.stub_iff t).trans ⟨fun ht => ⟨h.table.listed ht, ht⟩, And.right⟩
  found _ he := ⟨h.table.getFileP_some he, h.table.getThreadByFd_some he⟩
  not_found hno := by
    have hfree : s.Free _ := fun t e he => hno t (h.table.mem_threads he) e he
    exact ⟨h.table.getFileP_none hfree, Table.getThreadByFd_none hfree⟩

/-- **The table of descriptors.**  In every state that calls of `open` and `close` reach, as long
    as fewer than 2^32 - 2 files were opened, the lists are in order. -/
theorem descriptor_table_ok {fs : Fs} {threads : List ℕ} (hthreads : threads.Nodup)
    (h : Reaches Sys.step OpenOrClose (.boot fs threads) s) (hopens : opens s.log < 2 ^ 32 - 2) : TableOk s := by
  have hinv : opens s.log < 2 ^ 32 - 2 → Counted s := by
    refine h.invariant (P := fun s => opens s.log < 2 ^ 32 - 2 → Counted s)
      (fun _ => ⟨.boot fs hthreads, le_rfl⟩) ?_
    intro s q s' ih hq hstep hopens'
    refine step_counted (ih ?_) hq hstep hopens'
    exact lt_of_le_of_lt (opens_le_step hstep) hopens'
  exact (hinv hopens).tableOk

/-- A memory with the name of the one file at 1, of the other elsewhere. -/
def namesAB : Memory := fun p => if p = 1 then some nameA else some nameB

theorem descriptor_table_ok_two : ∃ s, Reaches Sys.step OpenOrClose (.boot twoFiles [7, 8]) s ∧
    (s.fdsLl == [8] && s.globalFd == 5) = true ∧ TableOk s := by
  obtain ⟨s, hs, hp⟩ := reaches_of_run Sys.step OpenOrClose (.boot twoFiles [7, 8])
    [⟨7, namesAB, .open_ 1⟩, ⟨8, namesAB, .open_ 1⟩, ⟨8, namesAB, .open_ 2⟩, ⟨7, namesAB, .use 2 .close⟩,
      ⟨8, namesAB, .use 3 .close⟩]
    (fun s => s.fdsLl == [8] && s.globalFd == 5 && opens s.log == 3) (by decide +kernel)
  rw [Bool.and_eq_true, beq_iff_eq] at hp
  exact ⟨s, hs, hp.1, descriptor_table_ok (by decide) hs (by rw [hp.2]; decide)⟩

end Pintos.Files
