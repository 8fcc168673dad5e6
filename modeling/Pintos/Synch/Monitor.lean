/-
  A lock and its condition variables (threads/synch.c).

  Any threads use one lock and any condition variables tied to it.  The steps are those that the functions
  take between interrupts: the operations of semaphores (Semaphore.lean), the stores to `lock->holder`, and
  pushing to and popping from `cond->waiters`.  The semaphore on which a thread waits is in the frame of its
  `cond_wait`, so it is found by the thread; lists of waiters have the threads in place of these frames.
-/
import Pintos.Synch.Semaphore

namespace Pintos.Synch

open Lib Function

universe u v

/-- Where a thread is.  `acquire` and what follows it has the condition variable if it is inside
    `cond_wait`. -/
inductive Pc (τ : Type u) (κ : Type v) where
  /-- in no call, and not since a return with the lock -/
  | outside
  /-- in no call, and has returned with the lock -/
  | inside
  /-- in `lock_acquire`: at `sema_down`, blocked there, and behind it -/
  | acquire (w : Option κ)
  | acquireBlocked (w : Option κ)
  | acquired (w : Option κ)
  /-- in `lock_release`, behind `holder = NULL` -/
  | release
  /-- in `cond_wait`: behind `list_push_back`, in `lock_release` behind `holder = NULL`, at
      `sema_down` and blocked there -/
  | waitPushed (c : κ)
  | waitRelease (c : κ)
  | waitDown (c : κ)
  | waitBlocked (c : κ)
  /-- in `cond_signal`, behind `list_pop_front` -/
  | signal (c : κ) (v : τ)
  /-- in `cond_broadcast`: at the test of the loop, and in its `cond_signal` behind
      `list_pop_front` -/
  | broadcast (c : κ)
  | broadcastSignal (c : κ) (v : τ)

/-- A call of `cond_signal` or `cond_broadcast`: who was waiting when it was made, and whom it has released. -/
structure Wake (τ : Type u) (κ : Type v) where
  all : Bool
  cond : κ
  waiting : List τ
  released : List τ
  deriving DecidableEq

structure Monitor (τ : Type u) (κ : Type v) where
  /-- `lock->holder` -/
  holder : Option τ
  /-- `lock->semaphore` -/
  semaphore : Semaphore τ
  /-- `cond->waiters` -/
  waiters : κ → List τ
  /-- `waiter.semaphore` of the `cond_wait` of a thread -/
  own : τ → Semaphore τ
  pc : τ → Pc τ κ
  time : ℕ
  since : τ → ℕ
  waits : τ → ℕ
  releases : τ → ℕ
  /-- the signals and broadcasts that a thread has called, the last one first -/
  wakes : τ → List (Wake τ κ)
  failed : Bool

inductive Call (κ : Type v) where
  | acquire
  | tryAcquire
  | release
  | wait (c : κ)
  | signal (c : κ)
  | broadcast (c : κ)

variable {τ : Type u} {κ : Type v}

namespace Monitor

/-- After `lock_init` and `cond_init`. -/
def init : Monitor τ κ where
  holder := none
  semaphore := .init 1
  waiters _ := []
  own _ := .init 0
  pc _ := .outside
  time := 0
  since _ := 0
  waits _ := 0
  releases _ := 0
  wakes _ := []
  failed := false

variable [DecidableEq τ] [DecidableEq κ]

def setPc (s : Monitor τ κ) (t : τ) (p : Pc τ κ) : Monitor τ κ := { s with pc := update s.pc t p }

/-- An assertion inside the functions. -/
def assert (s : Monitor τ κ) (p : Prop) [Decidable p] : Monitor τ κ := { s with failed := s.failed || decide (¬ p) }

/-- `thread_unblock` of the thread that `sema_up` found. -/
def unblock (s : Monitor τ κ) : Option τ → Monitor τ κ
  | none => s
  | some t =>
    match s.pc t with
    | .acquireBlocked w => s.setPc t (.acquire w)
    | .waitBlocked c => s.setPc t (.waitDown c)
    | _ => { s with failed := true }

def setSemaphore (s : Monitor τ κ) (semaphore : Semaphore τ) : Monitor τ κ := { s with semaphore }

def setOwn (s : Monitor τ κ) (v : τ) (own : Semaphore τ) : Monitor τ κ := { s with own := update s.own v own }

/-- The thread `v` is released by the last call of `t`. -/
def countRelease (s : Monitor τ κ) (t v : τ) : Monitor τ κ :=
  { s with
    releases := update s.releases v (s.releases v + 1)
    wakes := update s.wakes t ((s.wakes t).modifyHead fun w => { w with released := w.released ++ [v] }) }

/-- `sema_up (&lock->semaphore)`. -/
def upLock (s : Monitor τ κ) : Monitor τ κ := (s.setSemaphore s.semaphore.up.1).unblock s.semaphore.up.2

/-- `sema_up` by `t` of the semaphore of a thread that is released. -/
def upOwn (s : Monitor τ κ) (t v : τ) : Monitor τ κ :=
  ((s.setOwn v (s.own v).up.1).countRelease t v).unblock (s.own v).up.2

/-- `list_push_back` in `cond_wait`, behind `sema_init`. -/
def push (s : Monitor τ κ) (t : τ) (c : κ) : Monitor τ κ :=
  { s with
    own := update s.own t (.init 0)
    waiters := update s.waiters c (s.waiters c ++ [t])
    time := s.time + 1
    since := update s.since t s.time
    waits := update s.waits t (s.waits t + 1) }

def setWaiters (s : Monitor τ κ) (c : κ) (l : List τ) : Monitor τ κ := { s with waiters := update s.waiters c l }

def setHolder (s : Monitor τ κ) (holder : Option τ) : Monitor τ κ := { s with holder }

/-- A thread makes a call; the assertions at the start of the functions are conditions. -/
def call (s : Monitor τ κ) (t : τ) : Call κ → Option (Monitor τ κ)
  | .acquire => if s.holder = some t then none else some (s.setPc t (.acquire none))
  | .tryAcquire =>
    if s.holder = some t then none
    else if s.semaphore.tryDown.2 then some ((s.setSemaphore s.semaphore.tryDown.1).setPc t (.acquired none))
    else some s
  | .release => if s.holder = some t then some ((s.setHolder none).setPc t .release) else none
  | .wait c => if s.holder = some t then some ((s.push t c).setPc t (.waitPushed c)) else none
  | .signal c =>
    if s.holder = some t then
      match s.waiters c with
      | [] => some s
      | v :: l => some ((s.setWaiters c l).setPc t (.signal c v))
    else none
  | .broadcast c =>
    match s.waiters c with
    | [] => some s
    | v :: l => if s.holder = some t then some ((s.setWaiters c l).setPc t (.broadcastSignal c v)) else none

/-- A thread goes on in the function it is in; blocked threads do not. -/
def next (s : Monitor τ κ) (t : τ) : Option (Monitor τ κ) :=
  match s.pc t with
  | .outside | .inside | .acquireBlocked _ | .waitBlocked _ => none
  | .acquire w =>
    some ((s.setSemaphore (s.semaphore.down t).1).setPc t
      (if (s.semaphore.down t).2 then .acquired w else .acquireBlocked w))
  | .acquired _ => some ((s.setHolder (some t)).setPc t .inside)
  | .release => some (s.upLock.setPc t .outside)
  | .waitPushed c => some (((s.assert (s.holder = some t)).setHolder none).setPc t (.waitRelease c))
  | .waitRelease c => some (s.upLock.setPc t (.waitDown c))
  | .waitDown c =>
    some (((s.setOwn t ((s.own t).down t).1).assert
      (((s.own t).down t).2 = true → s.holder ≠ some t)).setPc t
      (if ((s.own t).down t).2 then .acquire (some c) else .waitBlocked c))
  | .signal _ v => some ((s.upOwn t v).setPc t .inside)
  | .broadcastSignal c v => some ((s.upOwn t v).setPc t (.broadcast c))
  | .broadcast c =>
    match s.waiters c with
    | [] => some (s.setPc t .inside)
    | v :: l => some (((s.assert (s.holder = some t)).setWaiters c l).setPc t (.broadcastSignal c v))

/-- A signal or broadcast is logged when it is called. -/
def log (s : Monitor τ κ) (t : τ) : Call κ → Monitor τ κ
  | .signal c => { s with wakes := update s.wakes t (⟨false, c, s.waiters c, []⟩ :: s.wakes t) }
  | .broadcast c => { s with wakes := update s.wakes t (⟨true, c, s.waiters c, []⟩ :: s.wakes t) }
  | _ => s

/-- A thread that is in no call makes one, or a thread goes on. -/
def step (s : Monitor τ κ) : τ × Option (Call κ) → Option (Monitor τ κ)
  | (t, some c) =>
    match s.pc t with
    | .outside | .inside => (s.log t c).call t c
    | _ => none
  | (t, none) => s.next t

end Monitor

/-! ## What holds -/

/-- Between the return with the lock and the next call of `lock_release` or `cond_wait`. -/
def Pc.within : Pc τ κ → Bool
  | .inside | .signal .. | .broadcast .. | .broadcastSignal .. => true
  | _ => false

/-- The condition variable on which a thread waits. -/
def Pc.waiting : Pc τ κ → Option κ
  | .waitPushed c | .waitRelease c | .waitDown c | .waitBlocked c => some c
  | _ => none

/-- In `cond_signal` or `cond_broadcast`. -/
def Pc.waking : Pc τ κ → Bool
  | .signal .. | .broadcast _ | .broadcastSignal .. => true
  | _ => false

/-- A signal is to release the thread that waited longest, a broadcast all of them. -/
def Wake.due (w : Wake τ κ) : List τ := if w.all then w.waiting else w.waiting.take 1

def Wake.ok (w : Wake τ κ) : Prop := w.released = w.due

structure MonitorOk (s : Monitor τ κ) : Prop where
  /-- at most one thread is between -/
  exclusive : ∀ t t', (s.pc t).within = true → (s.pc t').within = true → t = t'
  holder : ∀ t, (s.pc t).within = true → s.holder = some t
  /-- the waiters are in the order in which they began to wait -/
  order : ∀ c, (s.waiters c).Pairwise (s.since · < s.since ·)
  /-- a call of signal or broadcast that has returned has released those that were due -/
  wakes : ∀ t, ∀ w ∈ (if (s.pc t).waking then (s.wakes t).tail else s.wakes t), w.ok
  /-- a thread that waits was released at most once, and then finds its semaphore up -/
  released : ∀ t c, (s.pc t).waiting = some c → s.waits t = s.releases t + 1 ∨
    s.waits t = s.releases t ∧ s.pc t ≠ .waitBlocked c ∧ (s.own t).value = 1
  /-- a thread that does not wait any more was released once for each time it waited -/
  returned : ∀ t, (s.pc t).waiting = none → s.waits t = s.releases t
  asserts : s.failed = false

end Pintos.Synch
