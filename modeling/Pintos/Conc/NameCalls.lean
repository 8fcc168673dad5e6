/-
  Creating, removing and opening files at the same time (`create`, `remove` and `open` of
  userprog/syscall.c).

  `open` holds `fd_lock` while it works on the file system, but `create` and `remove` hold no lock, and
  others run at every request to the device.
-/
import Pintos.Conc.ReadWrite
import Pintos.Files.Names

namespace Pintos.Conc

open Lib Files Synch Prog Function List

inductive NameOp where
  | create (file initialSize : ℕ)
  | remove (file : ℕ)
  | open_ (file : ℕ)

/-- The call that is not interrupted. -/
def NameOp.call : NameOp → Call
  | create file initialSize => .create file initialSize
  | remove file => .remove file
  | open_ file => .open_ file

/-- A call, with the memory of its process. -/
structure NameCall where
  mem : Memory
  op : NameOp

def boolRet (b : Bool) : Ret := .eax (if b then 1 else 0)

/-- The descriptor of a file that was opened. -/
def newFd (t file f : ℕ) : SysM ℕ := do
  let s ← get
  modify Sys.nextFd
  if 2 ≤ s.globalFd then do
    addFd t s.globalFd f file
    pure s.globalFd
  else pure s.globalFd

section
variable (junk : ℕ → InodeDisk)

/-- `open` between `lock_acquire` and `lock_release`. -/
def openLocked (t file : ℕ) (name : Name) : SysCo Ret := do
  let f ← onFsCo (filesysOpen junk name)
  match f with
  | none => pure (.eax minusOne)
  | some f => do
    let fd ← .atomic (newFd t file f)
    pure (.eax fd)

/-- A call up to where it uses the file system, or takes the lock. -/
def NameCall.enter (t : ℕ) (q : NameCall) : SysM (Ret ⊕ SysCo Ret) :=
  match q.op with
  | .create file initialSize =>
    if initialSize ≤ 204800 then do
      let name ← readName q.mem file
      if 128 < name.val.length then pure (.inl (boolRet false))
      else if name.val.length = 0 then pure (.inl (boolRet false))
      else pure (.inr do return boolRet (← onFsCo (filesysCreate junk name initialSize)))
    else pure (.inl (boolRet false))
  | .remove file => do
    let name ← readName q.mem file
    let referred ← isReferred q.mem t file name
    if referred then pure (.inl (boolRet true)) else pure (.inr do return boolRet (← onFsCo (filesysRemove junk name)))
  | .open_ file => do
    let name ← readName q.mem file
    if name.val.length = 0 then pure (.inl (.eax minusOne))
    else do
      let s ← get
      let removing ← isRemoving q.mem name s.removingList
      if removing then pure (.inl (.eax minusOne)) else pure (.inr (openLocked junk t file name))

/-- `create`, `remove` and `open` by `threads`; the lock is `fd_lock`. -/
def nameCalls (threads : List ℕ) : Service Sys Fault ℕ NameCall Ret where
  threads
  may _ _ := true
  enter := NameCall.enter junk
  locks q := q.op matches .open_ _

end

/-- A call that is made alone. -/
def NameAlone (s : Sys) (m : Made ℕ NameCall Ret) (s' : Sys) : Prop := (m.k.op.call.exec m.k.mem m.t).run s = .ok (m.ret, s')

/-! ## Calls that are not interrupted -/

variable {junk : ℕ → InodeDisk} {mem : Memory} {name : Name} {s s' : Sys} {t file : ℕ}

theorem isRemoving_any {l : List RemovingFile} {r : Bool} (h : (isRemoving mem name l).run s = .ok (r, s')) (u : Sys) :
    (isRemoving mem name l).run u = .ok (r, u) := by
  induction l with
  | nil =>
    obtain ⟨rfl, -⟩ := ok_inj h
    rfl
  | cons rf rest ih =>
    obtain ⟨n, v, hread, hrest⟩ := ok_of_run_bind h
    obtain ⟨hn, rfl⟩ := ok_of_readName hread
    unfold isRemoving
    rw [run_bind_ok (readName_run hn u)]
    split_ifs at hrest ⊢ with he
    · obtain ⟨rfl, -⟩ := ok_inj hrest
      rfl
    · exact ih hrest

theorem keeps_newFd (t file f : ℕ) : Prog.Keeps (·.removingList) (newFd t file f) := by
  have hadd : ∀ fd, Prog.Keeps (·.removingList) (addFd t fd f file) := by
    intro fd s _ s' h
    cases addFd_spec h <;> rfl
  exact keeps_get.bind fun s => (keeps_modify (g := Sys.nextFd) fun _ => rfl).bind fun _ =>
    .ite ((hadd _).bind fun _ => keeps_pure _) (keeps_pure _)

theorem keeps_openLocked (t file : ℕ) (name : Name) : (openLocked junk t file name).Keeps (·.removingList) := by
  refine (keeps_onFsCo (fun _ _ => rfl) _).bind fun f => ?_
  cases f with
  | none => trivial
  | some f => exact (Co.keeps_atomic (keeps_newFd t file f)).bind fun _ => trivial

theorem nameCalls_steady (threads : List ℕ) : (nameCalls junk threads).Steady (·.removingList) where
  enter {t q s r s'} hk h u hu := by
    obtain ⟨mem, op⟩ := q
    cases op with
    | create file size => cases hk
    | remove file => cases hk
    | open_ file =>
      change (NameCall.enter junk t ⟨mem, .open_ file⟩).run s = .ok (r, s') at h
      change (NameCall.enter junk t ⟨mem, .open_ file⟩).run u = .ok (r, u)
      unfold NameCall.enter at h ⊢
      obtain ⟨n, v, hread, hrest⟩ := ok_of_run_bind h
      obtain ⟨hn, rfl⟩ := ok_of_readName hread
      rw [run_bind_ok (readName_run hn u)]
      split_ifs at hrest ⊢ with hempty
      · obtain ⟨rfl, -⟩ := ok_inj hrest
        rfl
      · rw [run_bind_get] at hrest ⊢
        obtain ⟨removing, w, hrem, hret⟩ := ok_of_run_bind hrest
        rw [hu, run_bind_ok (isRemoving_any hrem u)]
        split_ifs at hret ⊢ with hr
        · obtain ⟨rfl, -⟩ := ok_inj hret
          rfl
        · obtain ⟨rfl, -⟩ := ok_inj hret
          rfl
  keeps {t q s c s'} hk h := by
    obtain ⟨mem, op⟩ := q
    cases op with
    | create file size => cases hk
    | remove file => cases hk
    | open_ file =>
      change (NameCall.enter junk t ⟨mem, .open_ file⟩).run s = .ok (.inr c, s') at h
      unfold NameCall.enter at h
      obtain ⟨n, v, -, hrest⟩ := ok_of_run_bind h
      split_ifs at hrest with hempty
      · cases hrest
      · rw [run_bind_get] at hrest
        obtain ⟨removing, w, -, hret⟩ := ok_of_run_bind hrest
        split_ifs at hret with hr
        · cases hret
        · obtain ⟨he, -⟩ := ok_inj hret
          exact Sum.inr.inj he ▸ keeps_openLocked t file n

theorem run_openLocked (t file : ℕ) (name : Name) : (openLocked junk t file name).run = (do
    let f ← onFs (Pintos.filesysOpen name)
    match f with
    | none => pure (.eax minusOne)
    | some f => do return .eax (← newFd t file f) : SysM Ret) := by
  unfold openLocked
  rw [Co.run_bind, run_onFsCo, run_filesysOpen]
  refine bind_congr fun f => ?_
  cases f with
  | none => rfl
  | some f => simp only [Co.run_bind, Co.run_atomic, Co.run_pure]

theorem open_eq (junk : ℕ → InodeDisk) (mem : Memory) (t file : ℕ) : (do return .eax (← Files.open_ mem t file) : SysM Ret) = (do
    let name ← readName mem file
    if name.val.length = 0 then pure (.eax minusOne)
    else do
      let s ← get
      let removing ← isRemoving mem name s.removingList
      if removing then pure (.eax minusOne) else (openLocked junk t file name).run) := by
  apply StateT.ext
  intro s
  unfold Files.open_
  rw [bind_assoc]
  refine run_bind_congr fun n s1 hread => ?_
  split_ifs with hempty
  · rfl
  rw [bind_assoc, run_bind_get, run_bind_get, bind_assoc]
  refine run_bind_congr fun removing s2 hrem => ?_
  obtain rfl : s2 = s1 := keeps_isRemoving (v := id) mem n _ _ _ _ hrem
  cases removing with
  | true => rfl
  | false =>
    rw [if_neg Bool.false_ne_true, if_neg Bool.false_ne_true, run_openLocked, bind_assoc]
    refine run_bind_congr fun f s3 hopen => ?_
    obtain ⟨fs, -, rfl⟩ := ok_of_onFs hopen
    cases f with
    | none => rfl
    | some f => rfl

theorem nameExec_eq_whole (junk : ℕ → InodeDisk) (threads : List ℕ) (t : ℕ) (q : NameCall) :
    q.op.call.exec q.mem t = (nameCalls junk threads).whole t q := by
  obtain ⟨mem, op⟩ := q
  cases op with
  | create file size =>
    dsimp only [Service.whole, nameCalls, NameCall.enter, NameOp.call, Call.exec, Files.create]
    split_ifs
    · simp only [bind_assoc]
      refine bind_congr fun n => ?_
      split_ifs
      · rfl
      · rfl
      · simp only [pure_bind, Co.run_bind, Co.run_pure, run_onFsCo, run_filesysCreate]
        rfl
    · rfl
  | remove file =>
    dsimp only [Service.whole, nameCalls, NameCall.enter, NameOp.call, Call.exec, Files.remove]
    simp only [bind_assoc]
    refine bind_congr fun n => bind_congr fun referred => ?_
    split_ifs
    · rfl
    · simp only [pure_bind, Co.run_bind, Co.run_pure, run_onFsCo, run_filesysRemove]
      rfl
  | open_ file =>
    dsimp only [Service.whole, nameCalls, NameCall.enter, NameOp.call, Call.exec]
    rw [open_eq junk]
    simp only [bind_assoc]
    refine bind_congr fun n => ?_
    split_ifs
    · rfl
    · simp only [bind_assoc]
      refine bind_congr fun s => bind_congr fun removing => ?_
      split_ifs
      · rfl
      · rfl

theorem nameAlone_eq (threads : List ℕ) : (nameCalls junk threads).Alone = NameAlone := by
  funext s m s'
  unfold NameAlone
  rw [nameExec_eq_whole junk threads m.t]
  rfl

/-! ## What calls leave, one after the other -/

/-- The call created a file. -/
def NameCall.Creates (q : NameCall) (ret : Ret) (name : Name) : Prop :=
  match q.op with
  | .create file _ => q.mem file = some name ∧ ret = boolRet true
  | _ => False

instance (q : NameCall) (ret : Ret) (name : Name) : Decidable (q.Creates ret name) := by
  unfold NameCall.Creates
  cases q.op <;> infer_instance

/-- The call is to remove a file. -/
def NameCall.Removes (q : NameCall) (name : Name) : Prop :=
  match q.op with
  | .remove file => q.mem file = some name
  | _ => False

/-- No file that was created is lost, no name has two entries, and no sector has two owners. -/
structure NamesKept (order : List (Made ℕ NameCall Ret)) (fs : Fs) : Prop where
  kept : ∀ {before m after name}, order = before ++ m :: after → m.k.Creates m.ret name →
    (∀ m' ∈ after, ¬ m'.k.Removes name) → fs.Named name
  once : ∀ {i j}, fs.EntryUsed i → fs.EntryUsed j →
    cstr (entryAt fs.rootDir i).name = cstr (entryAt fs.rootDir j).name → i = j
  extents : ExtentsOk fs

theorem issued_fs {f : ℕ} (hm : s.fs.MemoryOk) (h : Issued s t f file s') : s'.fs = s.fs := by
  have hafter : ∀ {u : Sys} (k : ℕ), u.fs = s.fs → (u.afterMallocs k).fs = s.fs := by
    intro u k hu
    have hmem : (fun n => s.fs.memory (n + k)) = s.fs.memory := by rw [hm]
    change ({ u.fs with memory := fun n => u.fs.memory (n + k) } : Fs) = s.fs
    rw [hu, hmem]
  cases h with
  | reserved => rfl
  | added _ hadd =>
    cases hadd with
    | full => rfl
    | noMemory => exact hafter 1 rfl
    | @added k => exact hafter k rfl

section
variable {a : Store}

/-- A name is bound behind the call if it was before. -/
def Binds (a b : Store) (name : Name) : Prop := a.names name ≠ none → b.names name ≠ none

theorem create_sim {size : ℕ} {r : Bool} (hsim : Sim s.fs a) (h : (Files.create mem file size).run s = .ok (r, s')) :
    ∃ b, Sim s'.fs b ∧ (r = true → ∀ name, mem file = some name → b.names name ≠ none) ∧ ∀ name, Binds a b name := by
  have hfalse : ∀ {u : Sys}, s = u → r = false → ∃ b, Sim u.fs b ∧
      (r = true → ∀ name, mem file = some name → b.names name ≠ none) ∧ ∀ name, Binds a b name := by
    rintro u rfl rfl
    exact ⟨a, hsim, nofun, fun _ => id⟩
  unfold Files.create at h
  split_ifs at h with hsize
  swap
  · obtain ⟨hr, hs⟩ := ok_inj h
    exact hfalse hs hr.symm
  obtain ⟨n, s1, hread, hrest⟩ := ok_of_run_bind h
  obtain ⟨hn, rfl⟩ := ok_of_readName hread
  split_ifs at hrest with hlong hempty
  · obtain ⟨hr, hs⟩ := ok_inj hrest
    exact hfalse hs hr.symm
  · obtain ⟨hr, hs⟩ := ok_inj hrest
    exact hfalse hs hr.symm
  obtain ⟨fs, hcreate, rfl⟩ := ok_of_onFs hrest
  have hfs : Fs.Step s1.fs (.create n size, .bool r) fs :=
    ⟨show (size : ℤ) < 2 ^ 31 by omega, (run_bind_ok hcreate).trans rfl⟩
  obtain ⟨b, hstep, hsim'⟩ := sim_simulates hsim hfs
  refine ⟨b, hsim', ?_⟩
  cases hstep with
  | createFail => exact ⟨nofun, fun _ => id⟩
  | @create _ _ id =>
    have hnames : ∀ m, ((a.bind n (some id)).putBytes id (replicate (size : ℤ).toNat 0)).names m =
        if m = n then some id else a.names m := fun m => update_apply ..
    refine ⟨fun _ name hname => ?_, fun name hb => ?_⟩
    · rw [hnames, if_pos (Option.some.inj (hname.symm.trans hn))]
      exact Option.some_ne_none id
    · rw [hnames]
      split_ifs with he
      · exact Option.some_ne_none id
      · exact hb

theorem remove_sim {r : Bool} (hsim : Sim s.fs a) (h : (Files.remove mem t file).run s = .ok (r, s')) :
    ∃ b, Sim s'.fs b ∧ ∀ name, mem file ≠ some name → Binds a b name := by
  obtain ⟨n, s1, hread, hrest⟩ := ok_of_run_bind h
  obtain ⟨hn, rfl⟩ := ok_of_readName hread
  obtain ⟨referred, s2, hreferred, hrest⟩ := ok_of_run_bind hrest
  have hfs := isReferred_fs hsim.memory hreferred
  rw [← hfs] at hsim
  split_ifs at hrest with hr
  · obtain ⟨-, rfl⟩ := ok_inj hrest
    exact ⟨a, hsim, fun _ _ => id⟩
  obtain ⟨fs, hremove, rfl⟩ := ok_of_onFs hrest
  have hstep : Fs.Step s2.fs (.remove n, .bool r) fs := ⟨trivial, (run_bind_ok hremove).trans rfl⟩
  obtain ⟨b, hstep, hsim'⟩ := sim_simulates hsim hstep
  refine ⟨b, hsim', fun name hname => ?_⟩
  cases hstep with
  | removeFail => exact id
  | remove =>
    intro hb
    have hne : name ≠ n := by
      rintro rfl
      exact hname hn
    change update a.names n none name ≠ none
    rwa [update_of_ne hne]

theorem open_sim {r : ℕ} (hsim : Sim s.fs a) (h : (Files.open_ mem t file).run s = .ok (r, s')) :
    ∃ b, Sim s'.fs b ∧ b.names = a.names := by
  have hopen : ∀ {n : Name} {f : Option ℕ} {fs : Fs}, (Pintos.filesysOpen n).run s.fs = .ok (f, fs) →
      ∃ b, Sim fs b ∧ b.names = a.names := by
    intro n f fs hrun
    have hstep : Fs.Step s.fs (.open_ n, .file f) fs := ⟨trivial, (run_bind_ok hrun).trans rfl⟩
    obtain ⟨b, hstep, hsim'⟩ := sim_simulates hsim hstep
    refine ⟨b, hsim', ?_⟩
    cases hstep <;> rfl
  cases open_spec h with
  | empty => exact ⟨a, hsim, rfl⟩
  | hidden => exact ⟨a, hsim, rfl⟩
  | absent _ _ hrun => exact hopen hrun
  | issued _ _ _ hrun hissued =>
    obtain ⟨b, hsim', hnames⟩ := hopen hrun
    exact ⟨b, (issued_fs hsim'.memory hissued).symm ▸ hsim', hnames⟩

theorem nameAlone_sim {m : Made ℕ NameCall Ret} (hsim : Sim s.fs a) (h : NameAlone s m s') :
    ∃ b, Sim s'.fs b ∧ (∀ name, m.k.Creates m.ret name → b.names name ≠ none) ∧
      ∀ name, ¬ m.k.Removes name → Binds a b name := by
  obtain ⟨t, ⟨mem, op⟩, ret⟩ := m
  cases op with
  | create file size =>
    obtain ⟨r, s1, hcreate, hret⟩ := ok_of_run_bind h
    cases hret
    obtain ⟨b, hsim', hnew, hold⟩ := create_sim hsim hcreate
    refine ⟨b, hsim', fun name hc => hnew ?_ name hc.1, fun name _ => hold name⟩
    cases r with
    | true => rfl
    | false => cases hc.2
  | remove file =>
    obtain ⟨r, s1, hremove, hret⟩ := ok_of_run_bind h
    obtain ⟨-, rfl⟩ := ok_inj hret
    obtain ⟨b, hsim', hold⟩ := remove_sim hsim hremove
    exact ⟨b, hsim', nofun, hold⟩
  | open_ file =>
    obtain ⟨r, s1, hopen, hret⟩ := ok_of_run_bind h
    obtain ⟨-, rfl⟩ := ok_inj hret
    obtain ⟨b, hsim', hnames⟩ := open_sim hsim hopen
    exact ⟨b, hsim', nofun, fun name _ hb => hnames ▸ hb⟩

theorem nameRuns_sim {order : List (Made ℕ NameCall Ret)} (h : Runs NameAlone s order s') (hsim : Sim s.fs a) :
    ∃ b, Sim s'.fs b ∧ ∀ name, (∀ m ∈ order, ¬ m.k.Removes name) → Binds a b name := by
  induction h generalizing a with
  | nil => exact ⟨a, hsim, fun _ _ => id⟩
  | cons hm _ ih =>
    obtain ⟨b, hsim', -, hold⟩ := nameAlone_sim hsim hm
    obtain ⟨c, hsim'', hrest⟩ := ih hsim'
    refine ⟨c, hsim'', fun name hno hb => ?_⟩
    exact hrest name (fun m hm => hno m (mem_cons_of_mem _ hm)) (hold name (hno _ mem_cons_self) hb)

end

theorem namesKept_of_runs {order : List (Made ℕ NameCall Ret)} (hformat : s.fs.Formatted) (h : Runs NameAlone s order s') :
    NamesKept order s'.fs := by
  obtain ⟨a, hsim⟩ := hformat.sim
  obtain ⟨b, hsim', -⟩ := nameRuns_sim h hsim
  refine ⟨fun {before m after name} horder hc hno => ?_, hsim'.entry_once, hsim'.extentsOk⟩
  subst horder
  obtain ⟨u, hbefore, hrest⟩ := h.of_append
  obtain ⟨a1, hsim1, -⟩ := nameRuns_sim hbefore hsim
  cases hrest with
  | cons hm hafter =>
    obtain ⟨a2, hsim2, hnew, -⟩ := nameAlone_sim hsim1 hm
    obtain ⟨a3, hsim3, hold⟩ := nameRuns_sim hafter hsim2
    exact (hsim3.named_iff name).2 (hold name hno (hnew name hc))

/-! ## The order of the calls -/

/-- **Calls that do not overlap, those of `open` apart, are serial.**  There is an order of the
    calls, which has the calls of every thread in the order in which it made them, such that each
    returns what it returned when they are made one after the other, and the last one leaves the
    file system as it is while no call works on it.  On a device that was formatted no file that was
    created is lost, no name has two entries, and no sector has two owners. -/
theorem name_calls_serial {s : Calls Sys Fault ℕ NameCall Ret} {s0 : Sys}
    (h : Reaches (nameCalls junk s0.allList).step (nameCalls junk s0.allList).Apart (.boot s0) s) :
    ∃ order last, Runs NameAlone s0 order last ∧
      (∀ t, s.history t <+: callsOf order t ∧ (s.pc t = .outside → callsOf order t = s.history t)) ∧
      (s.Quiet → s.state = last ∧ (s0.fs.Formatted → NamesKept order s.state.fs)) := by
  obtain ⟨order, last, hruns, hcalls, hlast⟩ := calls_serial (nameCalls_steady s0.allList) h
  rw [nameAlone_eq] at hruns
  exact ⟨order, last, hruns, hcalls, fun hq => ⟨hlast hq, fun hformat => (hlast hq) ▸ namesKept_of_runs hformat hruns⟩⟩

/-- Two processes and a device with the files `a` and `b`. -/
def twoCreators : Sys := .boot twoFiles [7, 8]

theorem boot_formatted {fs : Fs} (h : fs.Formatted) (threads : List ℕ) : (Sys.boot fs threads).fs.Formatted := h

def nameC : Name := ⟨[99], by decide⟩

def nameD : Name := ⟨[100], by decide⟩

/-- A memory with the one name at 1, and the other elsewhere. -/
def namesCD : Memory := fun p => some (if p = 1 then nameC else nameD)

/-- Inodes as `malloc` leaves them. -/
def noInodes : ℕ → InodeDisk := fun _ => ⟨0, 0, 0⟩

/-- One process creates `c`, and then both open it; the other has to wait for the lock. -/
theorem name_calls_serial_opens :
    ∃ s, Reaches (nameCalls noInodes twoCreators.allList).step (nameCalls noInodes twoCreators.allList).Apart
        (.boot twoCreators) s ∧
      (s.history 7).map Prod.snd = [boolRet true, .eax 2] ∧ (s.history 8).map Prod.snd = [.eax 3] ∧
      ∃ order last, Runs NameAlone twoCreators order last ∧
        (∀ t, s.history t <+: callsOf order t ∧ (s.pc t = .outside → callsOf order t = s.history t)) ∧
        (s.Quiet → s.state = last ∧ (twoCreators.fs.Formatted → NamesKept order s.state.fs)) := by
  obtain ⟨s, hs, hp⟩ := reaches_of_run (nameCalls noInodes twoCreators.allList).step
    (nameCalls noInodes twoCreators.allList).Apart (.boot twoCreators)
    ([.call 7 ⟨namesCD, .create 1 3⟩] ++ List.replicate 57 (.go 7) ++ [.call 7 ⟨namesCD, .open_ 1⟩, .down 7, .go 7, .go 7,
      .call 8 ⟨namesCD, .open_ 1⟩, .down 8] ++ List.replicate 9 (.go 7) ++ [.up 7, .down 8] ++ List.replicate 9 (.go 8) ++ [.up 8])
    (fun s => (s.history 7).map Prod.snd == [boolRet true, .eax 2] && (s.history 8).map Prod.snd == [Ret.eax 3])
    (by decide +kernel)
  rw [Bool.and_eq_true, beq_iff_eq, beq_iff_eq] at hp
  exact ⟨s, hs, hp.1, hp.2, name_calls_serial hs⟩

/-- There is one call, and it created a file. -/
def createdOnly (name : Name) : List (NameCall × Ret) → Bool
  | [(q, ret)] => decide (q.Creates ret name)
  | _ => false

theorem exists_of_createdOnly {l : List (NameCall × Ret)} (h : createdOnly name l = true) :
    ∃ q ret, l = [(q, ret)] ∧ q.Creates ret name := by
  match l, h with
  | [(q, ret)], h => exact ⟨q, ret, rfl, of_decide_eq_true h⟩

theorem not_removes_of_creates {q : NameCall} {ret : Ret} (h : q.Creates ret name) (n : Name) :
    ¬ q.Removes n := by
  obtain ⟨mem, op⟩ := q
  cases op with
  | create file size => exact not_false
  | remove file => exact h.elim
  | open_ file => exact h.elim

/-- One process creates `c` and waits for the device with the slot it found, while the other creates
    `d` in the same slot.  Both calls succeed, `d` is lost, and the root directory is that of
    no order of the two calls. -/
theorem name_calls_serial_fails :
    ∃ s q ret q' ret', Reaches (nameCalls noInodes twoCreators.allList).step anyStep (.boot twoCreators) s ∧
      (∀ t ∈ twoCreators.allList, (s.pc t).holds = false) ∧ s.history 7 = [(q, ret)] ∧ q.Creates ret nameC ∧ s.history 8 = [(q', ret')] ∧ q'.Creates ret' nameD ∧
      ¬ s.state.fs.Named nameD ∧
      ∀ order last, Runs NameAlone twoCreators order last → order.Perm [⟨7, q, ret⟩, ⟨8, q', ret'⟩] →
        last.fs.rootDir ≠ s.state.fs.rootDir := by
  obtain ⟨s, hs, hp⟩ := reaches_of_run (nameCalls noInodes twoCreators.allList).step anyStep (.boot twoCreators)
    ([.call 7 ⟨namesCD, .create 1 3⟩] ++ List.replicate 53 (.go 7) ++ [.call 8 ⟨namesCD, .create 2 3⟩] ++
      List.replicate 55 (.go 8) ++ List.replicate 4 (.go 7))
    (fun s => createdOnly nameC (s.history 7) && createdOnly nameD (s.history 8) && decide (¬ s.state.fs.Named nameD) &&
      decide (∀ t ∈ twoCreators.allList, (s.pc t).holds = false))
    (by decide +kernel)
  simp only [Bool.and_eq_true, decide_eq_true_eq] at hp
  obtain ⟨⟨⟨h7, h8⟩, hlost⟩, hpc⟩ := hp
  obtain ⟨q, ret, h7, hc⟩ := exists_of_createdOnly h7
  obtain ⟨q', ret', h8, hd⟩ := exists_of_createdOnly h8
  refine ⟨s, q, ret, q', ret', hs, hpc, h7, hc, h8, hd, hlost, fun order last hruns hperm hroot => hlost ?_⟩
  -- one after the other the calls keep what they create
  obtain ⟨before, after, rfl⟩ := append_of_mem (hperm.mem_iff.2 (mem_cons_of_mem _ mem_cons_self))
  have hnamed : last.fs.Named nameD := by
    refine (namesKept_of_runs (boot_formatted twoFiles_formatted [7, 8]) hruns).kept rfl hd fun m hm => ?_
    have hmem := hperm.mem_iff.1 (mem_append_right before (mem_cons_of_mem _ hm))
    rcases mem_pair.1 hmem with rfl | rfl
    · exact not_removes_of_creates hc nameD
    · exact not_removes_of_creates hd nameD
  unfold Fs.Named Fs.EntryUsed at hnamed ⊢
  rwa [hroot] at hnamed

end Pintos.Conc
