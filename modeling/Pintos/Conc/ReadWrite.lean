/-
  Reading and writing files at the same time (`read` and `write` of userprog/syscall.c).

  Any processes read and write files through descriptors.  A call looks up its file, takes `rw_sema`, works
  on the file system, where others run at every request to the device, and gives `rw_sema` back.
-/
import Pintos.Conc.Sections
import Pintos.Conc.Sequential
import Pintos.Files.Table

namespace Pintos.Conc

open Lib Files Synch Prog

/-- Programs on the system that others may interrupt. -/
abbrev SysCo := Co Sys Fault

/-- The file system as a part of the system. -/
def fsPart : Co.Part Sys Fs where
  get s := s.fs
  put := Sys.withFs
  get_put _ _ := rfl
  put_get _ := rfl
  put_put _ _ _ := rfl

def onFsCo {α : Type} (c : FsCo α) : SysCo α := c.zoom fsPart .fs

theorem run_onFsCo {α : Type} (c : FsCo α) : (onFsCo c).run = onFs c.run := by
  apply StateT.ext
  intro s
  refine (Co.run_zoom fsPart Fault.fs c s).trans ?_
  change fsPart.widen .fs s (c.run.run s.fs) = (onFs c.run).run s
  unfold onFs
  rw [run_bind_get]
  cases c.run.run s.fs with
  | error e => rfl
  | ok r => rfl

theorem keeps_onFsCo {α γ : Type} {view : Sys → γ} (hview : ∀ s fs, view (s.withFs fs) = view s) (c : FsCo α) :
    (onFsCo c).Keeps view := Co.keeps_zoom fsPart Fault.fs hview c

/-! ## The calls -/

inductive Io where
  | read (buffer length : ℕ) (keys : ℕ → UInt8)
  | write (buffer : ℕ) (bytes : ℕ → UInt8) (length : ℕ)

/-- The call that is not interrupted. -/
def Io.use : Io → Use
  | read buffer length keys => .read buffer length keys
  | write buffer bytes length => .write buffer bytes length

structure IoCall where
  fd : ℕ
  io : Io

/-- What a call does with the file of its descriptor: its result, or what it does between
    `sema_down` and `sema_up`. -/
def Io.withFile : Io → Option ℕ → Ret ⊕ SysCo Ret
  | read _ length _, some f => .inr do
    let bytes ← onFsCo (fileRead f (Int.bmod length (2 ^ 32)))
    pure (.data bytes.length bytes)
  | read .., none => .inl (.data minusOne [])
  | write _ bytes length, some f => .inr do
    let written ← onFsCo (fileWrite f bytes (Int.bmod length (2 ^ 32)))
    pure (.eax written)
  | write .., none => .inl (.eax 0)

/-- A call up to `sema_down`. -/
def IoCall.enter (q : IoCall) : SysM (Ret ⊕ SysCo Ret) :=
  match q.io with
  | .read buffer length keys =>
    if buffer ≠ 0 then
      if q.fd = 0 then pure (.inl (.data length (slice keys 0 length)))
      else do return q.io.withFile (← getFileP q.fd)
    else pure (.inl (.data minusOne []))
  | .write buffer bytes length =>
    if buffer ≠ 0 ∧ bytes 0 ≠ 0 then
      if q.fd = 1 then pure (.inl (.eax (putLoop length)))
      else do return q.io.withFile (← getFileP q.fd)
    else pure (.inl (.eax 0))

/-- `read` and `write` of files by `threads`. -/
def readWrite (threads : List ℕ) : Service Sys Fault ℕ IoCall Ret where
  threads
  may _ q := decide (2 ≤ q.fd)
  enter _ q := q.enter
  locks _ := true

/-- A call that is made alone; the names of files play no part in it. -/
def Alone (s : Sys) (m : Made ℕ IoCall Ret) (s' : Sys) : Prop :=
  (m.k.io.use.exec (fun _ => none) m.k.fd).run s = .ok (m.ret, s')

/-! ## Calls that are not interrupted -/

variable {s : Calls Sys Fault ℕ IoCall Ret} {s0 : Sys} {fs : Fs} {q : IoCall}

theorem getFileP_withFs {f : Option ℕ} {u : Sys} (h : (getFileP q.fd).run (s0.withFs fs) = .ok (f, u)) (fs' : Fs) :
    (getFileP q.fd).run (s0.withFs fs') = .ok (f, s0.withFs fs') := by
  have hloop : ∀ {ts : List ℕ}, (getFileLoop q.fd ts).run (s0.withFs fs) = .ok (f, u) →
      (getFileLoop q.fd ts).run (s0.withFs fs') = .ok (f, s0.withFs fs') := by
    intro ts
    induction ts with
    | nil =>
      intro h
      obtain ⟨rfl, -⟩ := ok_inj h
      rfl
    | cons t ts ih =>
      unfold getFileLoop readFdList
      intro h
      obtain ⟨l, v, hread, hrest⟩ := ok_of_run_bind h
      rw [run_bind_get] at hread
      split_ifs at hread with ht
      · cases hread
        rw [bind_assoc, run_bind_get, if_pos (show t ∈ (s0.withFs fs').allList from ht),
          run_bind_ok (run_pure _ _)]
        have hlist : ∀ fs, (s0.withFs fs).fdList t = s0.fdList t := fun _ => rfl
        rw [hlist] at hrest ⊢
        cases hfind : (s0.fdList t).find? (·.fd == q.fd) with
        | none =>
          rw [hfind] at hrest
          exact ih hrest
        | some e =>
          rw [hfind] at hrest
          obtain ⟨rfl, -⟩ := ok_inj hrest
          rfl
      · cases hread
  unfold getFileP at h ⊢
  split_ifs at h ⊢ with hfd
  · obtain ⟨rfl, -⟩ := ok_inj h
    rfl
  · rw [run_bind_get] at h ⊢
    exact hloop h

theorem enter_cases (q : IoCall) :
    (∃ ret, q.enter = pure (.inl ret)) ∨ q.enter = (do return q.io.withFile (← getFileP q.fd) : SysM _) := by
  obtain ⟨fd, io⟩ := q
  cases io with
  | read buffer length keys =>
    dsimp only [IoCall.enter]
    split_ifs
    · exact .inl ⟨_, rfl⟩
    · exact .inr rfl
    · exact .inl ⟨_, rfl⟩
  | write buffer bytes length =>
    dsimp only [IoCall.enter]
    split_ifs
    · exact .inl ⟨_, rfl⟩
    · exact .inr rfl
    · exact .inl ⟨_, rfl⟩

theorem enter_withFs {r : Ret ⊕ SysCo Ret} {u : Sys} (h : q.enter.run (s0.withFs fs) = .ok (r, u)) (fs' : Fs) :
    q.enter.run (s0.withFs fs') = .ok (r, s0.withFs fs') := by
  rcases enter_cases q with ⟨ret, he⟩ | he
  · rw [he] at h ⊢
    obtain ⟨rfl, -⟩ := ok_inj h
    rfl
  · rw [he] at h ⊢
    obtain ⟨f, v, hget, hrest⟩ := ok_of_run_bind h
    obtain ⟨rfl, -⟩ := ok_inj hrest
    rw [run_bind_ok (getFileP_withFs hget fs')]
    rfl

theorem withFile_keeps {γ : Type} {view : Sys → γ} (hview : ∀ s fs, view (s.withFs fs) = view s) {io : Io} {f : Option ℕ}
    {c : SysCo Ret} (h : io.withFile f = .inr c) : c.Keeps view := by
  cases io with
  | read buffer length keys =>
    cases f with
    | none => cases h
    | some f => exact Sum.inr.inj h ▸ (keeps_onFsCo hview _).bind fun _ => trivial
  | write buffer bytes length =>
    cases f with
    | none => cases h
    | some f => exact Sum.inr.inj h ▸ (keeps_onFsCo hview _).bind fun _ => trivial

theorem readWrite_steady (threads : List ℕ) (fs : Fs) : (readWrite threads).Steady (·.withFs fs) where
  enter {t q s r s'} _ h u hu := by
    have hs : s = (s.withFs fs).withFs s.fs := rfl
    have hu' : u = (s.withFs fs).withFs u.fs := by rw [← hu]; rfl
    rw [hu']
    exact enter_withFs h u.fs
  keeps {t q s c s'} _ h := by
    change q.enter.run s = .ok (.inr c, s') at h
    rcases enter_cases q with ⟨ret, he⟩ | he
    · rw [he] at h
      cases h
    · rw [he] at h
      obtain ⟨f, v, -, hrest⟩ := ok_of_run_bind h
      exact withFile_keeps (fun _ _ => rfl) (ok_inj hrest).1

theorem exec_eq_whole (threads : List ℕ) (t : ℕ) (q : IoCall) (mem : Memory) :
    q.io.use.exec mem q.fd = (readWrite threads).whole t q := by
  obtain ⟨fd, io⟩ := q
  cases io with
  | read buffer length keys =>
    dsimp only [Service.whole, readWrite, IoCall.enter, Io.use, Use.exec, Files.read]
    split_ifs
    · rfl
    · simp only [bind_assoc, pure_bind]
      refine bind_congr fun f => ?_
      cases f with
      | none => rfl
      | some f =>
        dsimp only [Io.withFile]
        simp only [Co.run_bind, Co.run_pure, run_onFsCo, run_fileRead, bind_assoc, pure_bind]
    · rfl
  | write buffer bytes length =>
    dsimp only [Service.whole, readWrite, IoCall.enter, Io.use, Use.exec, Files.write]
    split_ifs
    · rfl
    · simp only [bind_assoc, pure_bind]
      refine bind_congr fun f => ?_
      cases f with
      | none => rfl
      | some f =>
        dsimp only [Io.withFile]
        simp only [Co.run_bind, Co.run_pure, run_onFsCo, run_fileWrite]
    · rfl

theorem alone_eq (threads : List ℕ) : (readWrite threads).Alone = Alone := by
  funext s m s'
  unfold Alone
  rw [exec_eq_whole threads m.t]
  rfl

theorem readWrite_apart {threads : List ℕ} (s : Calls Sys Fault ℕ IoCall Ret) (l : CallLabel ℕ IoCall) :
    (readWrite threads).Apart s l := by
  cases l with
  | call t q =>
    intro t' _
    cases s.pc t' with
    | _ => rfl
  | _ => trivial

/-- **Reads and writes are serial.**  Whatever the interleaving, there is an order of the calls,
    which has the calls of every thread in the order in which it made them, such that each returns
    what it returned when they are made one after the other, and the last one leaves the file system
    as it is while no call works on it. -/
theorem read_write_serial (h : Reaches (readWrite s0.allList).step anyStep (.boot s0) s) :
    ∃ order last, Runs Alone s0 order last ∧
      (∀ t, s.history t <+: callsOf order t ∧ (s.pc t = .outside → callsOf order t = s.history t)) ∧
      (s.Quiet → s.state = last) := by
  rw [← alone_eq s0.allList]
  exact calls_serial (readWrite_steady s0.allList s0.fs) (h.mono fun s l _ => readWrite_apart s l)

/-- Two processes have the file `a` open, through the descriptors 2 and 3. -/
def sharedFile : Sys :=
  (runList Sys.step anyStep (.boot twoFiles [7, 8]) [⟨7, namesAB, .open_ 1⟩, ⟨8, namesAB, .open_ 1⟩]).getD (.boot twoFiles [7, 8])

/-- The one writes the file, and the other reads it. -/
def writeShared : IoCall := ⟨2, .write 1 (fun i => UInt8.ofNat (120 + i)) 3⟩

def readShared : IoCall := ⟨3, .read 1 3 fun _ => 0⟩

/-- A read that is called while a write waits for the device is blocked, and returns what was
    written. -/
theorem read_write_serial_blocked :
    ∃ s, Reaches (readWrite sharedFile.allList).step anyStep (.boot sharedFile) s ∧
      (s.history 8).map Prod.snd = [.data 3 [120, 121, 122]] ∧
      ∃ order last, Runs Alone sharedFile order last ∧
        (∀ t, s.history t <+: callsOf order t ∧ (s.pc t = .outside → callsOf order t = s.history t)) ∧
        (s.Quiet → s.state = last) := by
  obtain ⟨s, hs, hp⟩ := reaches_of_run (readWrite sharedFile.allList).step anyStep (.boot sharedFile)
    [.call 7 writeShared, .down 7, .go 7, .go 7, .call 8 readShared, .down 8, .go 7, .go 7, .go 7, .up 7,
      .down 8, .go 8, .go 8, .go 8, .up 8]
    (fun s => (s.history 8).map Prod.snd == [Ret.data 3 [120, 121, 122]]) (by decide +kernel)
  exact ⟨s, hs, beq_iff_eq.1 hp, read_write_serial hs⟩

end Pintos.Conc
