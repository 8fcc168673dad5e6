/-
  The scheduler (threads/thread.c).

  Threads are found by the page they lie in.  The functions run with interrupts off from the change of a
  status to the end of the switch, so each is one step; `thread_exit` is the part from `intr_disable` on,
  the call of `thread_unblock` before it being a step of its own.  The page allocator answers
  `palloc_get_page` with any page that holds no thread, or with a null pointer.
-/
import Pintos.Threads

namespace Pintos.Sched

open Lib Function

/-- `TIME_SLICE`. -/
def timeSlice : ℕ := 4

/-- `struct thread`. -/
structure Thread where
  status : ThreadStatus
  serial : ℕ

/-- A call of `palloc_free_page` in `thread_schedule_tail`. -/
structure Free where
  serial : ℕ
  page : Page
  status : ThreadStatus
  current : Page

structure Scheduler where
  /-- the pages that hold a thread -/
  mem : Page → Option Thread
  allList : List Page
  readyList : List Page
  idleThread : Page
  initialThread : Page
  /-- `running_thread ()` -/
  current : Page
  threadTicks : ℕ
  created : ℕ
  exited : List ℕ
  frees : List Free
  time : ℕ
  readyAt : Page → ℕ
  failed : Bool

namespace Scheduler

def status (s : Scheduler) (p : Page) : Option ThreadStatus := (s.mem p).map (·.status)

def setStatus (s : Scheduler) (p : Page) (status : ThreadStatus) : Scheduler :=
  { s with mem := update s.mem p ((s.mem p).map ({ · with status })) }

def assert (s : Scheduler) (q : Prop) [Decidable q] : Scheduler := { s with failed := s.failed || decide (¬ q) }

/-- `list_push_back (&ready_list, &t->elem)`. -/
def pushReady (s : Scheduler) (p : Page) : Scheduler :=
  { s with
    readyList := s.readyList ++ [p]
    time := s.time + 1
    readyAt := update s.readyAt p s.time }

/-- `palloc_free_page (prev)`. -/
def freePage (s : Scheduler) (p : Page) : Scheduler :=
  match s.mem p with
  | some t => { s with mem := update s.mem p none, frees := ⟨t.serial, p, t.status, s.current⟩ :: s.frees }
  | none => s

def nextThreadToRun (s : Scheduler) : Page × Scheduler :=
  match s.readyList with
  | [] => (s.idleThread, s)
  | p :: l => (p, { s with readyList := l })

def threadScheduleTail (s : Scheduler) (prev : Option Page) : Scheduler :=
  let s := { s.setStatus s.current .running with threadTicks := 0 }
  match prev with
  | none => s
  | some p =>
    if s.status p = some .dying ∧ p ≠ s.initialThread then (s.assert (p ≠ s.current)).freePage p else s

/-- `switch_threads (cur, next)`. -/
def switchThreads (s : Scheduler) (next : Page) : Scheduler := { s with current := next }

def schedule (s : Scheduler) : Scheduler :=
  let cur := s.current
  let (next, s) := s.nextThreadToRun
  let s := (s.assert (s.status cur ≠ some .running)).assert (s.mem next).isSome
  if cur ≠ next then (s.switchThreads next).threadScheduleTail (some cur) else s.threadScheduleTail none

def threadBlock (s : Scheduler) : Scheduler := (s.setStatus s.current .blocked).schedule

def threadUnblock (s : Scheduler) (t : Page) : Scheduler := (s.pushReady t).setStatus t .ready

def threadYield (s : Scheduler) : Scheduler :=
  ((if s.current ≠ s.idleThread then s.pushReady s.current else s).setStatus s.current .ready).schedule

/-- The timer interrupt: `thread_tick`, and `thread_yield` when the handler returns. -/
def threadTick (s : Scheduler) : Scheduler :=
  let s := { s with threadTicks := s.threadTicks + 1 }
  if timeSlice ≤ s.threadTicks then s.threadYield else s

def threadExit (s : Scheduler) : Scheduler :=
  ({ s with
    allList := s.allList.erase s.current
    exited := (s.mem s.current).toList.map Thread.serial ++ s.exited }.setStatus s.current .dying).schedule

/-- `init_thread` of a new page. -/
def initThread (s : Scheduler) (p : Page) : Scheduler :=
  { s with
    mem := update s.mem p (some ⟨.blocked, s.created⟩)
    allList := s.allList ++ [p]
    created := s.created + 1 }

/-- `thread_create`, where the page allocator returned `page`. -/
def threadCreate (s : Scheduler) : Option Page → Scheduler
  | none => s
  | some p => (s.initThread p).threadUnblock p

inductive Call where
  | create (page : Option Page)
  | block
  | unblock (t : Page)
  | yield
  | tick
  | exit

/-- The assertion of `thread_unblock` is a condition; `idle` never returns to `thread_exit`. -/
def step (s : Scheduler) : Call → Option Scheduler
  | .create page => if ∀ p ∈ page, s.mem p = none then some (s.threadCreate page) else none
  | .block => some s.threadBlock
  | .unblock t => if s.status t = some .blocked then some (s.threadUnblock t) else none
  | .yield => some s.threadYield
  | .tick => some s.threadTick
  | .exit => if s.current = s.idleThread then none else some s.threadExit

/-- When `thread_start` returns, the idle thread has blocked or was preempted before. -/
def start (initialThread idleThread : Page) (preempted : Bool) (ticks : ℕ) : Scheduler where
  mem p :=
    if p = initialThread then some ⟨.running, 0⟩
    else if p = idleThread then some ⟨if preempted then .ready else .blocked, 1⟩ else none
  allList := [initialThread, idleThread]
  readyList := []
  idleThread := idleThread
  initialThread := initialThread
  current := initialThread
  threadTicks := ticks
  created := 2
  exited := []
  frees := []
  time := 0
  readyAt _ := 0
  failed := false

/-- Nobody unblocks the idle thread. -/
def SparesIdle (s : Scheduler) (c : Call) : Prop := c ≠ .unblock s.idleThread

end Scheduler

structure SchedOk (s : Scheduler) : Prop where
  running : ∃! p, s.status p = some .running
  ready_nodup : s.readyList.Nodup
  ready_iff : ∀ p, p ∈ s.readyList ↔ s.status p = some .ready ∧ p ≠ s.idleThread
  ready_order : s.readyList.Pairwise (s.readyAt · < s.readyAt ·)
  all_nodup : s.allList.Nodup
  /-- the threads on the list have not exited, and those that have not are on the list -/
  all_iff : ∀ p, p ∈ s.allList ↔ ∃ t, s.mem p = some t ∧ t.serial ∉ s.exited
  all_mem : ∀ n < s.created, n ∉ s.exited → ∃ p ∈ s.allList, ∃ t, s.mem p = some t ∧ t.serial = n
  /-- every thread that has exited is freed once, the initial thread excepted -/
  freed_nodup : (s.frees.map (·.serial)).Nodup
  freed_iff : ∀ n, n ∈ s.frees.map (·.serial) ↔ n ∈ s.exited ∧ n ≠ 0
  freed_dying : ∀ f ∈ s.frees, f.status = .dying ∧ f.current ≠ f.page
  initial : ∀ t, s.mem s.initialThread = some t → t.serial = 0
  asserts : s.failed = false

end Pintos.Sched
