/-
  What processes leave behind.

  A process ends in `thread_exit`, which closes the program it runs; `exit` empties the lists of the process
  first, but closes no file, and the other routes do not look at the lists.  Files that are still open then
  stay open, and the stub of the process stays in `fds_ll` (`left_behind`).
-/
import Pintos.Args.FirstToken
import Pintos.Files.Names
import Pintos.Files.Offsets
import Pintos.Lib.Holders
import Pintos.Process.LoadFiles

namespace Pintos.Files

open Lib Prog Function List

/-! ## Processes -/

/-- How a process ends. -/
inductive Route where
  /-- the system call, or a pointer that `get_arg_pointer` refuses -/
  | exit
  /-- `thread_exit`: a number of no system call, a stack pointer that is null, or an exception -/
  | kill
  deriving DecidableEq

/-- The system, and the files of the processes without descriptors. -/
structure World where
  sys : Sys
  executableF : ℕ → Option ℕ
  /-- `execution_f`, while the process is in `exec` -/
  executionF : ℕ → Option ℕ

inductive Action where
  /-- a system call other than `exec` and `exit` -/
  | call (q : Request)
  /-- `exec` opens the program -/
  | check (t : ℕ) (file : Name)
  /-- `exec` closes it again -/
  | checked (t : ℕ)
  /-- a new thread loads a program, with the memory of the machine as it is then -/
  | start (t : ℕ) (pg : Paging.State) (line : Name)
  | finish (t : ℕ) (route : Route)

/-- The lists of the process, in `exit`. -/
def endLists (t : ℕ) : Route → SysM Unit
  | .exit => do
    modify fun s => s.withFdList t []
    modify fun s => s.withRemovingList (s.removingList.filter (·.t != t))
  | .kill => pure ()

/-- The part of `process_exit` that is about the program. -/
def closeExecutable : Option ℕ → SysM Unit
  | some file => do
    onFs (fileAllowWrite file)
    onFs (fileClose file)
  | none => pure ()

/-- A process ends. -/
def finish (t : ℕ) (route : Route) (executable : Option ℕ) : SysM Unit := do
  endLists t route
  closeExecutable executable
  modify fun s => s.withAllList (s.allList.erase t)

/-- A thread that has loaded its program. -/
def Sys.started (s : Sys) (t : ℕ) : Sys := (s.withAllList (s.allList ++ [t])).withFdList t []

def Call.isExit : Call → Bool
  | .exit => true
  | _ => false

namespace World

def boot (fs : Fs) (threads : List ℕ) : World := ⟨.boot fs threads, fun _ => none, fun _ => none⟩

def step (w : World) : Action → Option World
  | .call q =>
    if q.call.isExit = false ∧ w.executionF q.t = none then (w.sys.step q).map fun sys => { w with sys } else none
  | .check t file =>
    if t ∈ w.sys.allList ∧ w.executionF t = none then
      match (filesysOpen (Args.execName file)).run w.sys.fs with
      | .ok (f, fs) => some { w with sys := w.sys.withFs fs, executionF := update w.executionF t f }
      | .error _ => none
    else none
  | .checked t =>
    if t ∈ w.sys.allList then
      match w.executionF t with
      | some f =>
        match (fileClose f).run w.sys.fs with
        | .ok (_, fs) => some { w with sys := w.sys.withFs fs, executionF := update w.executionF t none }
        | .error _ => none
      | none => none
    else none
  | .start t pg line =>
    if t ∈ w.sys.allList then none
    else
      match (Process.load line).run ⟨pg, w.sys.fs, 0, none⟩ with
      | .ok (some (_, _, f), p) =>
        some ⟨(w.sys.withFs p.fs).started t, update w.executableF t (some f), update w.executionF t none⟩
      -- the new thread ends at once
      | .ok (none, p) => some { w with sys := w.sys.withFs p.fs }
      | .error _ => none
  | .finish t route =>
    if t ∈ w.sys.allList ∧ w.executionF t = none then
      match (finish t route (w.executableF t)).run w.sys with
      | .ok (_, sys) => some { w with sys, executableF := update w.executableF t none }
      | .error _ => none
    else none

/-- The files that a process holds. -/
def handlesOf (w : World) (t : ℕ) : List ℕ :=
  (w.sys.fdList t).map FdElem.f ++ ((w.executableF t).toList ++ (w.executionF t).toList)

/-- The files that the kernel and the processes that live hold. -/
def handles (w : World) : List ℕ := w.sys.fs.freeMapFile.toList ++ w.sys.allList.flatMap w.handlesOf

end World

theorem exit_eq_finish (t : ℕ) : Files.exit t = finish t .exit none := by
  unfold Files.exit finish endLists closeExecutable
  simp only [bind_assoc, pure_bind]

/-! ## What is to be true -/

/-- Processes that have ended have left nothing behind: no stub, no entry of the `removing_list`, and no file. -/
structure CleanedUp (w : World) : Prop where
  stub : ∀ t ∉ w.sys.allList, t ∉ w.sys.fdsLl
  removing : ∀ t ∉ w.sys.allList, ∀ rf ∈ w.sys.removingList, rf.t ≠ t
  openCnt : ∀ {i n}, w.sys.fs.inodes.get i = some n →
    n.openCnt = (w.handles.countP fun k => (w.sys.fs.files.get k).any (·.inode == i) : ℕ)

/-- The file system after a call of `open` has opened its file. -/
def opensTo (mem : Memory) (file : ℕ) (s : Sys) : Option Fs := do
  let n ← mem file
  if n.val.length = 0 ∨ ∃ rf ∈ s.removingList, mem rf.fileName = some n then none
  else
    match (filesysOpen n).run s.fs with
    | .ok (some _, fs) => some fs
    | _ => none

/-- A call of `open` that opens a file has room and memory for the descriptor, and a number that is
    free; a process that ends has closed its descriptors, and if it does not end in `exit`, it has
    no entry of the `removing_list`. -/
def Provided (w : World) : Action → Prop
  | .call q =>
    match q.call with
    | .open_ file => w.sys.Unheld w.sys.globalFd ∧ ∀ fs ∈ opensTo q.mem file w.sys,
        (w.sys.fdList q.t).length < threadFilesMax ∧ fs.memory 0 = true ∧ 2 ≤ w.sys.globalFd
    | _ => True
  | .finish t .exit => w.sys.fdList t = []
  | .finish t .kill => w.sys.fdList t = [] ∧ ∀ rf ∈ w.sys.removingList, rf.t ≠ t
  | _ => True

/-- Every open file has one holder, and the entries of the `removing_list` are those of processes that live. -/
structure Accounted (w : World) : Prop where
  attached : Attached w.sys
  lists : w.sys.fs.files.Lists w.handles
  removing : ∀ rf ∈ w.sys.removingList, rf.t ∈ w.sys.allList

theorem Accounted.cleanedUp {w : World} (h : Accounted w) : CleanedUp w where
  stub t ht hstub := ht (h.attached.table.listed ((h.attached.table.stub_iff t).1 hstub))
  removing t ht rf hrf heq := ht (heq ▸ h.removing rf hrf)
  openCnt {i n} hn := by
    rw [h.attached.counted.openCnt_eq hn, count_nil, Nat.add_zero]
    exact congrArg _ (h.lists.count_eq _)

/-! ## Changes of what is held -/

section
variable {w v : World} {t k : ℕ}

theorem handles_perm_cons (hnodup : w.sys.allList.Nodup) (ht : t ∈ w.sys.allList) (hall : v.sys.allList = w.sys.allList)
    (hmap : v.sys.fs.freeMapFile = w.sys.fs.freeMapFile) (hat : (v.handlesOf t).Perm (k :: w.handlesOf t))
    (hothers : ∀ t' ≠ t, v.handlesOf t' = w.handlesOf t') : v.handles.Perm (k :: w.handles) := by
  unfold World.handles
  rw [hmap, hall]
  exact ((flatMap_perm_cons hnodup ht hat hothers).append_left _).trans perm_middle

namespace Accounted

theorem gets (h : Accounted w) (ht : t ∈ w.sys.allList) (hall : v.sys.allList = w.sys.allList) (ho : OneMore w.sys.fs v.sys.fs k)
    (hat : (v.handlesOf t).Perm (k :: w.handlesOf t)) (hothers : ∀ t' ≠ t, v.handlesOf t' = w.handlesOf t') :
    v.sys.fs.files.Lists v.handles :=
  h.lists.add ho.fresh ho.isOpen ho.others (handles_perm_cons h.attached.table.threads_nodup ht hall ho.map hat hothers)

theorem gives (h : Accounted w) (ht : t ∈ w.sys.allList) (hall : v.sys.allList = w.sys.allList) (hl : OneLess w.sys.fs v.sys.fs k)
    (hat : (w.handlesOf t).Perm (k :: v.handlesOf t)) (hothers : ∀ t' ≠ t, v.handlesOf t' = w.handlesOf t') :
    w.handles.Perm (k :: v.handles) ∧ v.sys.fs.files.Lists v.handles := by
  have hnodup : v.sys.allList.Nodup := hall ▸ h.attached.table.threads_nodup
  have hperm := handles_perm_cons hnodup (hall ▸ ht) hall.symm hl.map.symm hat fun t' ht' => (hothers t' ht').symm
  exact ⟨hperm, h.lists.drop hl.closed hl.others hperm⟩

theorem apart (h : Accounted w) (hperm : w.handles.Perm (k :: v.handles)) (hfd : v.sys.fdList = w.sys.fdList)
    (hall : v.sys.allList = w.sys.allList) (hmap : v.sys.fs.freeMapFile = w.sys.fs.freeMapFile) :
    (∀ {t e}, e ∈ w.sys.fdList t → e.f ≠ k) ∧ w.sys.fs.freeMapFile ≠ some k := by
  have hnot := (nodup_cons.1 (hperm.nodup_iff.1 h.lists.nodup)).1
  constructor
  · rintro t e he rfl
    refine hnot (mem_append_right _ (mem_flatMap.2 ⟨t, hall ▸ h.attached.table.mem_threads he, ?_⟩))
    unfold World.handlesOf
    rw [hfd]
    exact mem_append_left _ (mem_map_of_mem he)
  · intro heq
    refine hnot (mem_append_left _ ?_)
    rw [hmap, heq]
    exact mem_singleton_self k

theorem stays (h : Accounted w) (hs : Stays w.sys v.sys) (hexec : v.executableF = w.executableF) (hcheck : v.executionF = w.executionF)
    (hremoving : ∀ rf ∈ v.sys.removingList, rf.t ∈ v.sys.allList) : Accounted v := by
  refine ⟨h.attached.stays hs, h.lists.same hs.files.live ?_, hremoving⟩
  have hof : v.handlesOf = w.handlesOf := by
    unfold World.handlesOf
    rw [hs.fdList, hexec, hcheck]
  unfold World.handles
  rw [hs.files.map, hs.allList, hof]

end Accounted

end

/-! ## System calls -/

section
variable {s s' : Sys} {mem : Memory} {t fd file : ℕ} {e : FdElem}

/-- The entries of the `removing_list` are those of processes that live. -/
def Sys.Named (s : Sys) : Prop := ∀ rf ∈ s.removingList, rf.t ∈ s.allList

theorem Sys.Named.congr (h : s.Named) (hl : (s'.removingList, s'.allList) = (s.removingList, s.allList)) : s'.Named := by
  obtain ⟨hr, ha⟩ := Prod.mk.inj hl
  unfold Sys.Named
  rwa [hr, ha]

theorem preserves_named {α : Type} {x : SysM α} (hx : Prog.Keeps (fun s : Sys => (s.removingList, s.allList)) x) :
    Prog.Preserves Sys.Named x := fun _ _ _ h hrun => h.congr (hx _ _ _ hrun)

theorem named_removeClosed (o : Option ℕ) (fd : ℕ) : Prog.Preserves Sys.Named (removeClosed mem o fd) := by
  intro s a s' h hrun
  unfold removeClosed at hrun
  rw [run_bind_get] at hrun
  cases hfind : s.removingList.find? fun rf => rf.fd == fd && o == some rf.t with
  | none =>
    rw [hfind] at hrun
    obtain ⟨-, rfl⟩ := ok_inj hrun
    exact h
  | some rf =>
    rw [hfind] at hrun
    have h' : (s.withRemovingList (s.removingList.eraseP fun rf => rf.fd == fd && o == some rf.t)).Named := fun rf hrf =>
      h rf (mem_of_mem_eraseP hrf)
    refine Prog.Preserves.ite (preserves_named ?_) (preserves_named (keeps_pure _)) _ _ _ h' hrun
    exact (keeps_readName mem rf.fileName).bind fun n => (keeps_onFs (fun _ _ => rfl) _).bind fun _ => keeps_pure _

theorem named_close (fd : ℕ) : Prog.Preserves Sys.Named (Files.close mem fd) := by
  refine (preserves_named (keeps_getFileP fd)).bind fun f => ?_
  cases f with
  | none => exact preserves_named (keeps_pure _)
  | some f =>
    refine (preserves_named keeps_get).bind fun s => ?_
    have hclose : Prog.Preserves Sys.Named (onFs (fileClose f)) := preserves_named (keeps_onFs (fun _ _ => rfl) _)
    cases s.getThreadByFd fd with
    | none => exact hclose.bind fun _ => named_removeClosed none fd
    | some t =>
      refine Prog.Preserves.bind (preserves_named fun u a u' hrun => ?_) fun _ => hclose.bind fun _ => named_removeClosed (some t) fd
      rw [dropFd_run] at hrun
      obtain ⟨-, rfl⟩ := ok_inj hrun
      rfl

theorem stays_onFs_malloc (hc : Pintos.Counted s.fs []) {b : Bool} (hrun : (onFs malloc).run s = .ok (b, s')) : Stays s s' := by
  obtain ⟨fs, hmalloc, rfl⟩ := ok_of_onFs hrun
  have hfs : fs.handles = s.fs.handles := keeps_malloc (fun _ _ => rfl) _ _ _ hmalloc
  exact .withFs (hc.congr_handles hfs) (sameOpen_of_held (held_of_handles hfs))

/-- **`remove`** leaves the descriptors and the open files as they are. -/
theorem remove_stays {r : Bool} (h : Attached s) (hn : s.Named) (ht : t ∈ s.allList) (hrun : (remove mem t file).run s = .ok (r, s')) :
    Stays s s' ∧ s'.Named := by
  obtain ⟨name, s1, hread, hrest⟩ := ok_of_run_bind hrun
  obtain ⟨-, rfl⟩ := ok_of_readName hread
  obtain ⟨referred, s2, href, hlast⟩ := ok_of_run_bind hrest
  have h₂ : Stays s1 s2 ∧ s2.Named := by
    refine preserves_isReferred (P := fun u => Stays s1 u ∧ u.Named) (fun u b v hu hon => ?_) (fun u fd hu => ?_) _ _ _
      ⟨.refl h.counted, hn⟩ href
    · have hv := stays_onFs_malloc hu.1.counted hon
      exact ⟨hu.1.trans hv, preserves_named (keeps_onFs (fun _ _ => rfl) _) _ _ _ hu.2 hon⟩
    · refine ⟨hu.1.trans ⟨rfl, rfl, rfl, hu.1.counted, fun _ => rfl, rfl⟩, fun rf hrf => ?_⟩
      rcases mem_append.1 hrf with hrf | hrf
      · exact hu.2 rf hrf
      · rw [mem_singleton.1 hrf]
        change t ∈ u.allList
        rwa [hu.1.allList]
  cases referred with
  | true =>
    obtain ⟨-, rfl⟩ := ok_inj hlast
    exact h₂
  | false =>
    have h' := h.stays h₂.1
    obtain ⟨fs, hremove, rfl⟩ := ok_of_onFs hlast
    obtain ⟨hc, hheld⟩ := (noAssert_filesysRemove h'.counted h'.map name).ok hremove
    exact ⟨h₂.1.trans (.withFs hc (sameOpen_of_held hheld)), h₂.2⟩

/-- A use of a descriptor leaves the descriptors and the open files as they are, but for `close`. -/
theorem use_stays {u : Use} {ret : Ret} (h : Attached s) (hu : u ≠ .close) (hrun : (u.exec mem fd).run s = .ok (ret, s')) :
    Stays s s' := by
  refine (h.noAssert_use mem fd hu fun position hseek => ?_).ok hrun
  subst hseek
  by_contra hbad
  unfold Sys.Unheld at hbad
  push Not at hbad
  obtain ⟨⟨t, -, e, he, rfl⟩, hpos⟩ := hbad
  change StateT.run (do seek e.fd position; pure Ret.void) s = _ at hrun
  rw [StateT.run_bind, h.seek_fails he hpos] at hrun
  cases hrun

theorem perm_eraseP_fd {l : List FdElem} (hl : (l.map FdElem.fd).Nodup) (he : e ∈ l) :
    l.Perm (e :: l.eraseP (·.fd == e.fd)) := by
  obtain ⟨a, l1, l2, -, ha, hsplit, herase⟩ := exists_of_eraseP (p := (·.fd == e.fd)) he (beq_self_eq_true _)
  have hae : a = e := inj_on_of_nodup_map hl (hsplit ▸ mem_append_right _ mem_cons_self) he (beq_iff_eq.1 ha)
  rw [herase, ← hae]
  nth_rewrite 1 [hsplit]
  exact perm_middle

end

/-! ## Steps -/

namespace Accounted

variable {w v : World} {t : ℕ}

theorem record {sys : Sys} (h : Accounted { w with sys }) (ev : Event) : Accounted { w with sys := sys.record ev } :=
  h.stays ⟨rfl, rfl, rfl, h.attached.counted, fun _ => rfl, rfl⟩ rfl rfl h.removing

variable {s' : Sys}

theorem open_ {mem : Memory} {file r : ℕ} (h : Accounted w) (ht : t ∈ w.sys.allList)
    (htidy : Provided w (.call ⟨t, mem, .open_ file⟩)) (ho : Opened mem t file w.sys r s') : Accounted { w with sys := s' } := by
  have hatt := h.attached.open_ ht (h.attached.table.free_of_unheld htidy.1) ho
  obtain ⟨hall, hremoving, -⟩ := ho.frame
  have hnamed : s'.Named := Sys.Named.congr h.removing (Prod.ext hremoving hall)
  rcases h.attached.open_cases ho with hs | ⟨n, f, fs, hn, hlen, hrem, hopen, hi, hmore⟩
  · exact h.stays hs rfl rfl hnamed
  have hto : opensTo mem file w.sys = some fs := by
    have hnot : ¬ ∃ rf ∈ w.sys.removingList, mem rf.fileName = some n := fun ⟨rf, hrf, hname⟩ => ne_of_isRemoving hrem rf hrf hname
    unfold opensTo
    rw [hn, Option.bind_eq_bind, Option.bind_some, if_neg (not_or.2 ⟨hlen, hnot⟩), hopen]
  obtain ⟨hroom, hmem, h2⟩ := htidy.2 fs hto
  have hlist : s'.fdList = update w.sys.fdList t (w.sys.fdList t ++ [⟨w.sys.globalFd, f, file⟩]) := by
    cases hi with
    | reserved hlt => exact absurd h2 (Nat.not_le.2 hlt)
    | added _ ha =>
      cases ha with
      | full hfull => exact absurd hroom (Nat.not_lt.2 hfull)
      | noMemory _ hm => cases hm.symm.trans hmem
      | added => rfl
  refine ⟨hatt, h.gets ht hall hmore ?_ fun t' ht' => ?_, hnamed⟩
  · change List.Perm ((s'.fdList t).map FdElem.f ++ _) _
    rw [hlist, update_self, map_append, append_assoc]
    exact perm_middle
  · change (s'.fdList t').map FdElem.f ++ _ = _
    rw [hlist, update_of_ne ht']
    rfl

theorem close {mem : Memory} {fd : ℕ} (h : Accounted w) (hrun : (Files.close mem fd).run w.sys = .ok ((), s')) :
    Accounted { w with sys := s' } := by
  have hnamed : s'.Named := named_close fd _ _ _ h.removing hrun
  rcases (h.attached.noAssert_close fd).ok hrun with hs | ⟨t, e, he, -, hd⟩
  · exact h.stays hs rfl rfl hnamed
  have hlist : s'.fdList = update w.sys.fdList t ((w.sys.fdList t).eraseP (·.fd == e.fd)) := hd.fdList
  refine ⟨h.attached.drops he hd, ?_, hnamed⟩
  refine (h.gives (h.attached.table.mem_threads he) hd.allList hd.files ?_ fun t' ht' => ?_).2
  · change List.Perm ((w.sys.fdList t).map FdElem.f ++ _) (e.f :: ((s'.fdList t).map FdElem.f ++ _))
    rw [hlist, update_self, ← cons_append, ← map_cons]
    exact ((perm_eraseP_fd (h.attached.table.nodup t) he).map _).append_right _
  · change (s'.fdList t').map FdElem.f ++ _ = _
    rw [hlist, update_of_ne ht']
    rfl

/-- **System calls.** -/
theorem call {q : Request} (h : Accounted w) (htidy : Provided w (.call q)) (hexit : q.call.isExit = false)
    (hstep : w.sys.step q = some s') : Accounted { w with sys := s' } := by
  obtain ⟨ht, ret, u, hrun, rfl⟩ := step_spec hstep
  refine Accounted.record ?_ _
  obtain ⟨t, mem, call⟩ := q
  cases call with
  | create file size =>
    obtain ⟨r, u', hcreate, hret⟩ := ok_of_run_bind hrun
    obtain ⟨-, rfl⟩ := ok_inj hret
    have hnamed : u'.Named := preserves_named (keeps_create (fun _ _ => rfl) mem file size) _ _ _ h.removing hcreate
    exact h.stays ((h.attached.noAssert_create file size).ok hcreate) rfl rfl hnamed
  | remove file =>
    obtain ⟨r, u', hremove, hret⟩ := ok_of_run_bind hrun
    obtain ⟨-, rfl⟩ := ok_inj hret
    obtain ⟨hs, hnamed⟩ := remove_stays h.attached h.removing ht hremove
    exact h.stays hs rfl rfl hnamed
  | open_ file =>
    obtain ⟨r, u', hopen, hret⟩ := ok_of_run_bind hrun
    obtain ⟨-, rfl⟩ := ok_inj hret
    exact h.open_ ht htidy (open_spec hopen)
  | exit => cases hexit
  | use fd use =>
    by_cases hu : use = .close
    · subst hu
      obtain ⟨_, u', hclose, hret⟩ := ok_of_run_bind hrun
      obtain ⟨-, rfl⟩ := ok_inj hret
      exact h.close hclose
    · have hnamed : u.Named := preserves_named (keeps_use (fun _ _ => rfl) hu mem fd) _ _ _ h.removing hrun
      exact h.stays (use_stays h.attached hu hrun) rfl rfl hnamed

variable {fs : Fs}

/-- **`exec` opens the program.** -/
theorem check {name : Name} {r : Option ℕ} (h : Accounted w) (ht : t ∈ w.sys.allList) (hnone : w.executionF t = none)
    (hrun : (filesysOpen name).run w.sys.fs = .ok (r, fs)) :
    Accounted { w with sys := w.sys.withFs fs, executionF := update w.executionF t r } := by
  obtain ⟨hc, hnew⟩ := (noAssert_filesysOpen h.attached.counted h.attached.map name).ok hrun
  cases r with
  | none =>
    have hsame : update w.executionF t none = w.executionF := by
      rw [← hnone]
      exact update_eq_self t w.executionF
    rw [hsame]
    exact h.stays (.withFs hc (sameOpen_of_held hnew)) rfl rfl h.removing
  | some f =>
    have hmore : OneMore w.sys.fs fs f := .of_newFile hc hnew
    refine ⟨h.attached.opens 0 hmore (h.attached.table.congr rfl rfl rfl) fun he => .inl he, ?_, h.removing⟩
    refine h.gets ht rfl hmore ?_ fun t' ht' => ?_
    · change List.Perm ((w.sys.fdList t).map FdElem.f ++ ((w.executableF t).toList ++ (update w.executionF t (some f) t).toList))
        (f :: ((w.sys.fdList t).map FdElem.f ++ ((w.executableF t).toList ++ (w.executionF t).toList)))
      rw [update_self, hnone, ← append_assoc, Option.toList_some, Option.toList_none, append_nil]
      exact perm_append_singleton f _
    · change (w.sys.fdList t').map FdElem.f ++ ((w.executableF t').toList ++ (update w.executionF t (some f) t').toList) = _
      rw [update_of_ne ht']
      rfl

theorem live {k : ℕ} (h : Accounted w) (ht : t ∈ w.sys.allList) (hk : k ∈ w.handlesOf t) : ∃ f, w.sys.fs.files.get k = some f :=
  Option.isSome_iff_exists.1 ((h.lists.mem_iff k).1 (mem_append_right _ (mem_flatMap.2 ⟨t, ht, hk⟩)))

theorem releases {k : ℕ} (h : Accounted w) (ht : t ∈ w.sys.allList) (hsys : v.sys = w.sys.withFs fs) (hl : OneLess w.sys.fs fs k)
    (hat : (w.handlesOf t).Perm (k :: v.handlesOf t)) (hothers : ∀ t' ≠ t, v.handlesOf t' = w.handlesOf t') : Accounted v := by
  have hl' : OneLess w.sys.fs v.sys.fs k := by
    rwa [hsys]
  have hall : v.sys.allList = w.sys.allList := by rw [hsys]; rfl
  have hfd : v.sys.fdList = w.sys.fdList := by rw [hsys]; rfl
  obtain ⟨hperm, hlists⟩ := h.gives ht hall hl' hat hothers
  obtain ⟨hlist, hmap⟩ := h.apart hperm hfd hall hl'.map
  refine ⟨?_, hlists, ?_⟩
  · rw [hsys]
    exact h.attached.less hl hlist hmap
  · rw [hsys]
    exact h.removing

/-- **`exec` closes the program.** -/
theorem checked {f : ℕ} (h : Accounted w) (ht : t ∈ w.sys.allList) (hf : w.executionF t = some f)
    (hrun : (fileClose f).run w.sys.fs = .ok ((), fs)) :
    Accounted { w with sys := w.sys.withFs fs, executionF := update w.executionF t none } := by
  have hof : w.handlesOf t = (w.sys.fdList t).map FdElem.f ++ (w.executableF t).toList ++ [f] := by
    unfold World.handlesOf
    rw [hf, ← append_assoc]
    rfl
  obtain ⟨g, hg⟩ := h.live ht (hof ▸ mem_append_right _ mem_cons_self)
  have hl := (noAssert_fileClose_oneLess h.attached.counted h.attached.map hg).ok hrun
  refine h.releases ht rfl hl ?_ fun t' ht' => ?_
  · rw [hof]
    change List.Perm _ (f :: ((w.sys.fdList t).map FdElem.f ++ ((w.executableF t).toList ++ (update w.executionF t none t).toList)))
    rw [update_self, Option.toList_none, append_nil]
    exact perm_append_singleton f _
  · change (w.sys.fdList t').map FdElem.f ++ ((w.executableF t').toList ++ (update w.executionF t none t').toList) = _
    rw [update_of_ne ht']
    rfl

/-- **A process starts.** -/
theorem started {f : ℕ} (h : Accounted w) (ht : t ∉ w.sys.allList) (hmore : OneMore w.sys.fs fs f) :
    Accounted ⟨(w.sys.withFs fs).started t, update w.executableF t (some f), update w.executionF t none⟩ := by
  have hnil : w.sys.fdList t = [] := by
    by_contra hne
    exact ht (h.attached.table.listed hne)
  have hlist : ((w.sys.withFs fs).started t).fdList = w.sys.fdList := by
    change update w.sys.fdList t [] = w.sys.fdList
    rw [← hnil]
    exact update_eq_self t w.sys.fdList
  have htable : Table ((w.sys.withFs fs).started t) := by
    have hgrown : Table (w.sys.withAllList (w.sys.allList ++ [t])) :=
      { h.attached.table with
        threads_nodup := nodup_append.2 ⟨h.attached.table.threads_nodup, nodup_singleton t, by
          rintro a ha b hb rfl
          exact ht (mem_singleton.1 hb ▸ ha)⟩
        listed := fun hne => mem_append_left _ (h.attached.table.listed hne) }
    exact hgrown.congr rfl hlist rfl
  refine ⟨h.attached.opens 0 hmore htable fun he => .inl (hlist ▸ he), h.lists.add hmore.fresh hmore.isOpen hmore.others ?_,
    fun rf hrf => mem_append_left _ (h.removing rf hrf)⟩
  generalize hw : (⟨(w.sys.withFs fs).started t, update w.executableF t (some f), update w.executionF t none⟩ : World) = v
  have hself : v.handlesOf t = [f] := by
    rw [← hw]
    change (((w.sys.withFs fs).started t).fdList t).map FdElem.f ++ ((update w.executableF t (some f) t).toList ++
      (update w.executionF t none t).toList) = [f]
    rw [hlist, hnil, update_self, update_self]
    rfl
  have hothers : ∀ t' ∈ w.sys.allList, v.handlesOf t' = w.handlesOf t' := by
    intro t' ht'
    have hne : t' ≠ t := fun heq => ht (heq ▸ ht')
    rw [← hw]
    change (((w.sys.withFs fs).started t).fdList t').map FdElem.f ++ ((update w.executableF t (some f) t').toList ++
      (update w.executionF t none t').toList) = _
    rw [hlist, update_of_ne hne, update_of_ne hne]
    rfl
  have hall : v.sys.allList = w.sys.allList ++ [t] := by rw [← hw]; rfl
  have hmap : v.sys.fs.freeMapFile = w.sys.fs.freeMapFile := by rw [← hw]; exact hmore.map
  unfold World.handles
  rw [hall, hmap, flatMap_append, flatMap_singleton, hself, flatMap_congr hothers, ← append_assoc]
  exact perm_append_singleton f _

theorem closeExecutable (h : Accounted w) (ht : t ∈ w.sys.allList)
    (hrun : (Files.closeExecutable (w.executableF t)).run w.sys = .ok ((), s')) :
    Accounted { w with sys := s', executableF := update w.executableF t none } ∧ s'.fdList = w.sys.fdList ∧
      s'.allList = w.sys.allList ∧ s'.removingList = w.sys.removingList := by
  cases hf : w.executableF t with
  | none =>
    rw [hf] at hrun
    obtain ⟨-, rfl⟩ := ok_inj hrun
    have hsame : update w.executableF t none = w.executableF := by
      rw [← hf]
      exact update_eq_self t w.executableF
    rw [hsame]
    exact ⟨h, rfl, rfl, rfl⟩
  | some f =>
    rw [hf] at hrun
    obtain ⟨_, s1, honFs, honFs'⟩ := ok_of_run_bind hrun
    obtain ⟨fs1, hallow, rfl⟩ := ok_of_onFs honFs
    obtain ⟨fs, hclose, rfl⟩ := ok_of_onFs honFs'
    have hof : w.handlesOf t = (w.sys.fdList t).map FdElem.f ++ (f :: (w.executionF t).toList) := by
      unfold World.handlesOf
      rw [hf]
      rfl
    obtain ⟨g, hg⟩ := h.live ht (hof ▸ mem_append_right _ mem_cons_self)
    obtain ⟨hc1, hs1⟩ := (noAssert_fileAllowWrite h.attached.counted hg).ok hallow
    obtain ⟨g1, hg1⟩ := Option.isSome_iff_exists.1 ((hs1.live f).trans (Option.isSome_iff_exists.2 ⟨g, hg⟩))
    have hl := (noAssert_fileClose_oneLess hc1 (hs1.mapLive h.attached.map hc1) hg1).ok hclose
    refine ⟨h.releases ht rfl (.of_same hs1 hl) ?_ fun t' ht' => ?_, rfl, rfl, rfl⟩
    · rw [hof]
      change List.Perm _ (f :: ((w.sys.fdList t).map FdElem.f ++ ((update w.executableF t none t).toList ++ (w.executionF t).toList)))
      rw [update_self]
      exact perm_middle
    · change (w.sys.fdList t').map FdElem.f ++ ((update w.executableF t none t').toList ++ (w.executionF t').toList) = _
      rw [update_of_ne ht']
      rfl

theorem endLists {route : Route} (h : Accounted w) (htidy : Provided w (.finish t route))
    (hrun : (Files.endLists t route).run w.sys = .ok ((), s')) :
    Accounted { w with sys := s' } ∧ s'.allList = w.sys.allList ∧ s'.fdList t = [] ∧ ∀ rf ∈ s'.removingList, rf.t ≠ t := by
  cases route with
  | kill =>
    obtain ⟨-, rfl⟩ := ok_inj hrun
    exact ⟨h, rfl, htidy⟩
  | exit =>
    obtain ⟨-, rfl⟩ := ok_inj hrun
    have hlist : update w.sys.fdList t [] = w.sys.fdList := by
      rw [← show w.sys.fdList t = [] from htidy]
      exact update_eq_self t w.sys.fdList
    refine ⟨h.stays ⟨rfl, hlist, rfl, h.attached.counted, fun _ => rfl, rfl⟩ rfl rfl fun rf hrf => ?_, rfl, update_self .., fun rf hrf => ?_⟩
    · exact h.removing rf (mem_of_mem_filter hrf)
    · exact bne_iff_ne.1 (mem_filter.1 hrf).2

theorem leaves (h : Accounted w) (ht : t ∈ w.sys.allList) (hfd : w.sys.fdList t = []) (hexec : w.executableF t = none)
    (hcheck : w.executionF t = none) (hremoving : ∀ rf ∈ w.sys.removingList, rf.t ≠ t) :
    Accounted { w with sys := w.sys.withAllList (w.sys.allList.erase t) } := by
  have hnodup := h.attached.table.threads_nodup
  have hnil : w.handlesOf t = [] := by
    unfold World.handlesOf
    rw [hfd, hexec, hcheck]
    rfl
  refine ⟨{ h.attached with table := h.attached.table.erase hfd }, h.lists.same (fun _ => rfl) ?_, fun rf hrf => ?_⟩
  · exact (flatMap_erase_perm ht hnil).append_left _
  · exact (hnodup.mem_erase_iff).2 ⟨hremoving rf hrf, h.removing rf hrf⟩

/-- **A process ends.** -/
theorem finish {route : Route} (h : Accounted w) (ht : t ∈ w.sys.allList) (hnone : w.executionF t = none)
    (htidy : Provided w (.finish t route)) (hrun : (Files.finish t route (w.executableF t)).run w.sys = .ok ((), s')) :
    Accounted { w with sys := s', executableF := update w.executableF t none } := by
  obtain ⟨_, s1, hend, hrest⟩ := ok_of_run_bind hrun
  obtain ⟨_, s2, hclose, hlast⟩ := ok_of_run_bind hrest
  obtain ⟨-, rfl⟩ := ok_inj hlast
  obtain ⟨h1, hall, hfd, hremoving⟩ := h.endLists htidy hend
  obtain ⟨h₂, hfd2, hall2, hremoving2⟩ := h1.closeExecutable (show t ∈ s1.allList from hall ▸ ht) hclose
  refine h₂.leaves ?_ ?_ (update_self ..) hnone ?_
  · rwa [show s2.allList = s1.allList from hall2, hall]
  · exact (congrFun hfd2 t).trans hfd
  · rwa [show s2.removingList = s1.removingList from hremoving2]

theorem step {a : Action} (h : Accounted w) (htidy : Provided w a) (hstep : w.step a = some v) : Accounted v := by
  unfold World.step at hstep
  cases a with
  | call q =>
    dsimp only at hstep
    split_ifs at hstep with hq
    obtain ⟨s', hs', rfl⟩ := Option.map_eq_some_iff.1 hstep
    exact h.call htidy hq.1 hs'
  | check t file =>
    dsimp only at hstep
    split_ifs at hstep with ht
    cases hopen : (filesysOpen (Args.execName file)).run w.sys.fs with
    | error e => rw [hopen] at hstep; cases hstep
    | ok r =>
      rw [hopen] at hstep
      cases hstep
      exact h.check ht.1 ht.2 hopen
  | checked t =>
    dsimp only at hstep
    split_ifs at hstep with ht
    cases hf : w.executionF t with
    | none => rw [hf] at hstep; cases hstep
    | some f =>
      rw [hf] at hstep
      dsimp only at hstep
      cases hclose : (fileClose f).run w.sys.fs with
      | error e => rw [hclose] at hstep; cases hstep
      | ok r =>
        rw [hclose] at hstep
        cases hstep
        exact h.checked ht hf hclose
  | start t pg line =>
    dsimp only at hstep
    split_ifs at hstep with ht
    cases hload : (Process.load line).run ⟨pg, w.sys.fs, 0, none⟩ with
    | error e => rw [hload] at hstep; cases hstep
    | ok r =>
      obtain ⟨r, p⟩ := r
      have hfiles := Process.load_files h.attached.counted h.attached.map hload
      rw [hload] at hstep
      cases r with
      | none =>
        cases hstep
        exact h.stays (.withFs hfiles.1 hfiles.2) rfl rfl h.removing
      | some entry =>
        cases hstep
        exact h.started ht hfiles
  | finish t route =>
    dsimp only at hstep
    split_ifs at hstep with ht
    cases hfinish : (Files.finish t route (w.executableF t)).run w.sys with
    | error e => rw [hfinish] at hstep; cases hstep
    | ok r =>
      rw [hfinish] at hstep
      cases hstep
      exact h.finish ht.1 ht.2 htidy hfinish

theorem boot {threads : List ℕ} (hc : Pintos.Counted fs []) (hm : MapLive fs)
    (honly : ∀ k, (fs.files.get k).isSome → fs.freeMapFile = some k) (hthreads : threads.Nodup) : Accounted (.boot fs threads) := by
  refine ⟨.boot hc hm hthreads, ?_, nofun⟩
  have hnil : threads.flatMap (World.boot fs threads).handlesOf = [] := flatMap_eq_nil_iff.2 fun _ _ => rfl
  change fs.files.Lists (fs.freeMapFile.toList ++ threads.flatMap (World.boot fs threads).handlesOf)
  rw [hnil, append_nil]
  obtain ⟨m, f, -, hmap, hf, -⟩ := hm
  rw [hmap]
  refine ⟨nodup_singleton m, fun k => mem_singleton.trans ⟨?_, fun hk => ?_⟩⟩
  · rintro rfl
    exact Option.isSome_iff_exists.2 ⟨f, hf⟩
  · exact Option.some.inj ((honly k hk).symm.trans hmap)

end Accounted

/-- **Nothing is left behind.**  In every state that is reached from the start by steps that are tidy, processes
    that have ended have no stub and no entry of the `removing_list`, and every inode is open as often
    as the kernel and the processes that live hold it. -/
theorem nothing_left {fs : Fs} {threads : List ℕ} {w : World} (hc : Pintos.Counted fs []) (hm : MapLive fs)
    (honly : ∀ k, (fs.files.get k).isSome → fs.freeMapFile = some k) (hthreads : threads.Nodup)
    (hr : Reaches World.step Provided (.boot fs threads) w) : CleanedUp w := by
  have hw : Accounted w := hr.invariant (.boot hc hm honly hthreads) fun _ _ _ ih htidy hstep => ih.step htidy hstep
  exact hw.cleanedUp

instance (w : World) : (a : Action) → Decidable (Provided w a)
  | .call ⟨_, _, .open_ _⟩ => inferInstanceAs (Decidable (_ ∧ _))
  | .call ⟨_, _, .create ..⟩ | .call ⟨_, _, .remove _⟩ | .call ⟨_, _, .use ..⟩ | .call ⟨_, _, .exit⟩ => inferInstanceAs (Decidable True)
  | .check .. | .checked _ | .start .. => inferInstanceAs (Decidable True)
  | .finish _ .exit => inferInstanceAs (Decidable (_ = _))
  | .finish _ .kill => inferInstanceAs (Decidable (_ ∧ _))

theorem twoFiles_only (k : ℕ) (hk : (twoFiles.files.get k).isSome) : twoFiles.freeMapFile = some k := by
  have hall : ∀ k < twoFiles.files.next, (twoFiles.files.get k).isSome = true → twoFiles.freeMapFile = some k := by decide +kernel
  obtain ⟨f, hf⟩ := Option.isSome_iff_exists.1 hk
  exact hall k (Heap.lt_next hf) hk

/-- A process opens a file and closes it before it is killed. -/
theorem nothing_left_of_closed : ∃ w, Reaches World.step Provided (.boot twoFiles [7, 8]) w ∧ w.sys.allList = [8] ∧ CleanedUp w := by
  obtain ⟨w, hw, hp⟩ := reaches_of_run World.step Provided (.boot twoFiles [7, 8])
    [.call ⟨7, namesAB, .open_ 1⟩, .call ⟨7, namesAB, .use 2 .close⟩, .finish 7 .kill]
    (fun w => decide (w.sys.allList = [8])) (by decide +kernel)
  obtain ⟨hc, hm⟩ := twoFiles_counted
  have honly := twoFiles_only
  generalize twoFiles = fs at hw hc hm honly
  exact ⟨w, hw, of_decide_eq_true hp, nothing_left hc hm honly (by decide) hw⟩

/-- A process ends: it has left a stub, and a file that nobody holds. -/
def leavesFile (w : World) : Bool :=
  match w.step (.finish 7 .exit) with
  | some v => decide (7 ∉ v.sys.allList) && decide (7 ∈ v.sys.fdsLl) && decide ((v.sys.fs.inodes.get 5).map (·.openCnt) = some 1) &&
    (v.handles.countP fun k => (v.sys.fs.files.get k).any (·.inode == 5)) == 0
  | none => false

/-- A process is killed: it has left an entry of the `removing_list`. -/
def leavesEntry (w : World) : Bool :=
  match w.step (.finish 7 .kill) with
  | some v => decide (7 ∉ v.sys.allList) && decide (∃ rf ∈ v.sys.removingList, rf.t = 7)
  | none => false

/-- A process that opened a file calls `exit`; one that opened a file and removed it is killed. -/
theorem left_behind :
    (∃ w v n, Reaches World.step Provided (.boot twoFiles [7, 8]) w ∧ w.step (.finish 7 .exit) = some v ∧ 7 ∉ v.sys.allList ∧
      7 ∈ v.sys.fdsLl ∧ v.sys.fs.inodes.get 5 = some n ∧ n.openCnt = 1 ∧
      (v.handles.countP fun k => (v.sys.fs.files.get k).any (·.inode == 5)) = 0 ∧ ¬ CleanedUp v) ∧
    ∃ w v, Reaches World.step Provided (.boot twoFiles [7, 8]) w ∧ w.step (.finish 7 .kill) = some v ∧ 7 ∉ v.sys.allList ∧
      (∃ rf ∈ v.sys.removingList, rf.t = 7) ∧ ¬ CleanedUp v := by
  constructor
  · obtain ⟨w, hw, hp⟩ := reaches_of_run World.step Provided (.boot twoFiles [7, 8]) [.call ⟨7, namesAB, .open_ 1⟩] leavesFile (by decide +kernel)
    unfold leavesFile at hp
    split at hp
    · rename_i v hstep
      simp only [Bool.and_eq_true, decide_eq_true_eq, beq_iff_eq] at hp
      obtain ⟨⟨⟨hall, hstub⟩, hcnt⟩, hzero⟩ := hp
      obtain ⟨n, hn, hone⟩ := Option.map_eq_some_iff.1 hcnt
      exact ⟨w, v, n, hw, hstep, hall, hstub, hn, hone, hzero, fun hclean => hclean.stub 7 hall hstub⟩
    · cases hp
  · obtain ⟨w, hw, hp⟩ := reaches_of_run World.step Provided (.boot twoFiles [7, 8])
      [.call ⟨7, namesAB, .open_ 1⟩, .call ⟨7, namesAB, .remove 1⟩] leavesEntry (by decide +kernel)
    unfold leavesEntry at hp
    split at hp
    · rename_i v hstep
      simp only [Bool.and_eq_true, decide_eq_true_eq] at hp
      obtain ⟨hall, rf, hrf, ht⟩ := hp
      exact ⟨w, v, hw, hstep, hall, ⟨rf, hrf, ht⟩, fun hclean => hclean.removing 7 hall rf hrf ht⟩
    · cases hp

end Pintos.Files
