/-
  Threads, `process_execute`, `process_wait`, `exit` and `thread_exit` (threads/thread.c,
  userprog/process.c, userprog/syscall.c).

  The state holds the pages with a `struct thread` in them, `all_list` and the next `tid`.  A step is the
  code one thread runs between two points at which interrupts are on, so that any other thread that is not
  blocked may run in between.  `process_wait` turns interrupts off first, but `get_thread_by_pid` turns them
  on again before it returns; from there to `thread_block` every access to the child is a step of its own.
-/
import Pintos.Lib.Steps
import Mathlib.Tactic

namespace Pintos

open Function

/-- The page a `struct thread` lies in; `struct thread *` points to its start. -/
abbrev Page := ℕ

/-- `enum thread_status`. -/
inductive ThreadStatus where
  | running | ready | blocked | dying
  deriving DecidableEq, Repr

/-- `struct sub_thread`, the record a parent keeps of a child. -/
structure SubThread where
  pid : ℤ
  exitCode : ℤ
  deriving DecidableEq, Repr

/-- Where a thread stands in the functions below. -/
inductive Pc where
  /-- outside of them -/
  | user
  /-- `process_wait`: `get_thread_by_pid` returned a null pointer -/
  | waitGone (pid : ℤ)
  /-- `get_thread_by_pid` returned `st`; next `st->is_waited_by_parent` is read -/
  | waitFound (pid : ℤ) (st : Page)
  /-- next `st->pt != ct` is tested -/
  | waitParent (pid : ℤ) (st : Page)
  /-- next `st->is_waited_by_parent = true` -/
  | waitFlag (pid : ℤ) (st : Page)
  /-- next `thread_block ()` -/
  | waitBlock (pid : ℤ) (st : Page)
  /-- inside `thread_block ()` -/
  | waitBlocked (pid : ℤ) (st : Page)
  /-- `thread_exit`, up to its test of `is_waited_by_parent` -/
  | exiting
  /-- next `thread_unblock (t->pt)` -/
  | exitUnblock (pt : Page)
  /-- next `intr_disable ()` and `list_remove` -/
  | exitRemove
  /-- blocked on a semaphore, to go on at `k` -/
  | asleep (k : Pc)
  /-- a kernel access to an unmapped address: `page_fault` returns and the access faults again -/
  | faulting
  deriving DecidableEq, Repr

/-- Blocked on a semaphore. -/
def Pc.isAsleep : Pc → Bool
  | .asleep _ => true
  | _ => false

/-- `struct thread`, with the place its code has reached. -/
structure Thread where
  tid : ℤ
  status : ThreadStatus
  subThreads : List SubThread
  pt : Option Page
  isWaitedByParent : Bool
  pc : Pc
  deriving DecidableEq, Repr

/-- The calls made so far, with processes named by their `tid`. -/
inductive Event where
  /-- `process_execute` by `parent` returned `child` -/
  | executed (parent child : ℤ)
  /-- `exit (status)` -/
  | exited (pid status : ℤ)
  /-- `thread_exit ()` without `exit` -/
  | killed (pid : ℤ)
  /-- `process_wait (pid)` by `parent` returned `code` -/
  | waited (parent pid code : ℤ)
  deriving DecidableEq, Repr

structure Threads where
  mem : Page → Option Thread
  allList : List Page
  nextTid : ℤ
  /-- an `ASSERT` failed -/
  panicked : Bool
  /-- a store went astray into memory in use; what runs afterwards is not described -/
  corrupted : Bool
  /-- the latest call first -/
  log : List Event

/-- `initial_thread`, whose page is never freed. -/
def initialThread : Page := 0

namespace Threads

/-- Store a thread into its page. -/
def set (s : Threads) (p : Page) (t : Thread) : Threads :=
  { s with mem := update s.mem p (some t) }

/-- Go to `k`. -/
def goto (s : Threads) (p : Page) (t : Thread) (k : Pc) : Threads := s.set p { t with pc := k }

def record (s : Threads) (e : Event) : Threads := { s with log := e :: s.log }

/-- `process_wait (pid)` returns `code`. -/
def waitReturn (s : Threads) (p : Page) (t : Thread) (pid code : ℤ) : Threads :=
  (s.goto p t .user).record (.waited t.tid pid code)

/-- The scheduler runs `p`; a thread that was running is preempted. -/
def dispatch (s : Threads) (p : Page) : Threads :=
  { s with mem := fun q => (s.mem q).map fun t =>
      if q = p then { t with status := .running }
      else if t.status = .running then { t with status := .ready } else t }

/-- Let `p` run, if it may: its thread, in the state in which it runs. -/
def enter (s : Threads) (p : Page) : Option (Threads × Thread) :=
  if s.panicked = false ∧ s.corrupted = false ∧ p ∈ s.allList then
    match s.mem p with
    | some t => if t.status = .blocked ∨ t.status = .dying then none
                else some (s.dispatch p, { t with status := .running })
    | none => none
  else none

/-! ## Lookups -/

/-- `get_thread_by_pid`: the first thread of `all_list` with that `tid`. -/
def getThreadByPid (s : Threads) (pid : ℤ) : Option Page :=
  s.allList.find? fun p => (s.mem p).any fun t => t.tid == pid

/-- `st->is_waited_by_parent`; a freed page is filled with `0xcc`, which reads as true. -/
def isWaited (s : Threads) (st : Page) : Bool :=
  match s.mem st with
  | some c => c.isWaitedByParent
  | none => true

/-- `st->pt == ct`; a freed page holds no page address. -/
def isParent (s : Threads) (st ct : Page) : Bool :=
  match s.mem st with
  | some c => c.pt == some ct
  | none => false

end Threads

/-- `get_exit_code`: the loop over `sub_threads` returns in its first turn. -/
def getExitCode (t : Thread) (pid : ℤ) : ℤ :=
  if pid ≠ 0 then
    match t.subThreads with
    | r :: _ => r.exitCode
    | [] => -1
  else -1

/-- The loop of `exit` and `process_invalid_exit` that stores `code` into the first record
    with the given `pid`. -/
def setExitCode (pid code : ℤ) : List SubThread → List SubThread
  | [] => []
  | r :: rs => if r.pid = pid then { r with exitCode := code } :: rs else r :: setExitCode pid code rs

def Thread.setExit (t : Thread) (pid code : ℤ) : Thread :=
  { t with subThreads := setExitCode pid code t.subThreads }

/-- `list_push_back (&sub_threads, ..)` of the record that `malloc` gave, if any; its
    `exit_code` is whatever the block held. -/
def Thread.pushSub (t : Thread) (tid : ℤ) : Option ℤ → Thread
  | some junk => { t with subThreads := t.subThreads ++ [⟨tid, junk⟩] }
  | none => t

namespace Threads

/-! ## The calls -/

/-- `process_execute` by the thread at `p`, together with `thread_create_with_pt`.  `page` is
    what `palloc_get_page` returns for the new thread, `rec` what `malloc` returns for the
    `sub_thread`.  The record is pushed also when no thread was created, with `TID_ERROR` as
    its `pid`. -/
def processExecute (s : Threads) (p : Page) (t : Thread) (fnCopy : Bool) (page : Option Page)
    (rec : Option ℤ) : Option Threads :=
  if fnCopy = false then some (s.set p t) else
  match page with
  | none => some (s.set p (t.pushSub (-1) rec))
  | some q =>
    if (s.mem q).isSome ∨ q ∈ s.allList then none else
    some ({ (s.set p (t.pushSub s.nextTid rec)).set q ⟨s.nextTid, .ready, [], some p, false, .user⟩ with
      allList := s.allList ++ [q]
      nextTid := (s.nextTid + 1).bmod (2 ^ 32)
      log := .executed t.tid s.nextTid :: s.log })

/-- The loop of `exit` that is to orphan the children.  It casts every `struct sub_thread` to
    `struct thread`, so that `st->pt = NULL` changes no thread's `pt` but stores 136 bytes
    behind the record; `hits` says whether a store falls on memory in use. -/
def orphan (s : Threads) (t : Thread) (hits : Bool) : Threads :=
  { s with corrupted := s.corrupted || (!t.subThreads.isEmpty && hits) }

/-- `exit (status)` up to `thread_exit`. -/
def exit (s : Threads) (p : Page) (t : Thread) (status : ℤ) (hits : Bool) : Threads :=
  let s := s.orphan t hits
  match t.pt with
  | none => s.goto p t .faulting
  | some q =>
    match s.mem q with
    | none => s.goto p t .faulting
    | some pt =>
      ((s.set q (pt.setExit t.tid status)).goto p t .exiting).record (.exited t.tid status)

/-- `process_invalid_exit`, which returns to its caller. -/
def processInvalidExit (s : Threads) (p : Page) (t : Thread) : Threads :=
  match t.pt with
  | none => s.goto p t .faulting
  | some q =>
    match s.mem q with
    | none => s.goto p t .faulting
    | some pt => (s.set q (pt.setExit t.tid (-1))).goto p t .user

/-- `process_wait` up to the return of `get_thread_by_pid`, which enables interrupts. -/
def processWait (s : Threads) (p : Page) (t : Thread) (pid : ℤ) : Threads :=
  match s.getThreadByPid pid with
  | none => s.goto p t (.waitGone pid)
  | some st => s.goto p t (.waitFound pid st)

/-- `st->is_waited_by_parent = true`; a store into a freed page is lost. -/
def setWaited (s : Threads) (st : Page) : Threads :=
  match s.mem st with
  | some c => s.set st { c with isWaitedByParent := true }
  | none => s

/-- `thread_unblock (q)`, called with interrupts on. -/
def threadUnblock (s : Threads) (q : Page) : Threads :=
  match s.mem q with
  | some t => if t.status = .blocked then s.set q { t with status := .ready } else { s with panicked := true }
  | none => { s with panicked := true }

/-- The end of `thread_exit`: `list_remove`, `THREAD_DYING` and `schedule ()`, after which
    `thread_schedule_tail` frees the page. -/
def threadRemove (s : Threads) (p : Page) (t : Thread) : Threads :=
  { s with
    allList := s.allList.erase p
    mem := update s.mem p
      (if p = initialThread then some { t with status := .dying } else none) }

/-- The next step of the thread at `p` inside `process_wait` or `thread_exit`. -/
def advance (s : Threads) (p : Page) (t : Thread) : Option Threads :=
  match t.pc with
  | .waitGone pid => some (s.waitReturn p t pid (getExitCode t pid))
  | .waitFound pid st =>
    if s.isWaited st then some (s.waitReturn p t pid (-1)) else some (s.goto p t (.waitParent pid st))
  | .waitParent pid st =>
    if s.isParent st p then some (s.goto p t (.waitFlag pid st)) else some (s.waitReturn p t pid (-1))
  | .waitFlag pid st => some ((s.goto p t (.waitBlock pid st)).setWaited st)
  | .waitBlock pid st => some (s.set p { t with status := .blocked, pc := .waitBlocked pid st })
  | .waitBlocked pid _ => some (s.waitReturn p t pid (getExitCode t pid))
  | .exiting =>
    match t.isWaitedByParent, t.pt with
    | true, some q => some (s.goto p t (.exitUnblock q))
    | _, _ => some (s.goto p t .exitRemove)
  | .exitUnblock q => some ((s.goto p t .exitRemove).threadUnblock q)
  | .exitRemove => some (s.threadRemove p t)
  | .asleep k => some (s.goto p t k)
  | .user | .faulting => none

end Threads

/-! ## Steps -/

/-- What the thread at `p` does next. -/
inductive Label where
  | execute (p : Page) (fnCopy : Bool) (page : Option Page) (rec : Option ℤ)
  | exit (p : Page) (status : ℤ) (hits : Bool)
  /-- `thread_exit ()` reached without `exit` -/
  | kill (p : Page)
  | invalid (p : Page)
  | wait (p : Page) (pid : ℤ)
  /-- the next step inside `process_wait` or `thread_exit` -/
  | advance (p : Page)
  /-- block on a semaphore, in user code's system calls or in `process_exit` -/
  | sleep (p : Page)
  /-- `p` ups the semaphore that `q` is blocked on -/
  | wake (p q : Page)

namespace Threads

/-- A call made from outside the functions above. -/
def call (s : Threads) (p : Page) (f : Threads → Thread → Option Threads) : Option Threads :=
  match s.enter p with
  | some (s, t) => if t.pc = .user then f s t else none
  | none => none

def step (s : Threads) : Label → Option Threads
  | .execute p fnCopy page rec => s.call p fun s t => s.processExecute p t fnCopy page rec
  | .exit p status hits => s.call p fun s t => some (s.exit p t status hits)
  | .kill p => s.call p fun s t => some ((s.goto p t .exiting).record (.killed t.tid))
  | .invalid p => s.call p fun s t => some (s.processInvalidExit p t)
  | .wait p pid => s.call p fun s t => some (s.processWait p t pid)
  | .advance p =>
    match s.enter p with
    | some (s, t) => s.advance p t
    | none => none
  | .sleep p =>
    match s.enter p with
    | some (s, t) =>
      if t.pc = .user ∨ t.pc = .exiting then some (s.set p { t with status := .blocked, pc := .asleep t.pc })
      else none
    | none => none
  | .wake p q => s.call p fun s _ =>
      match s.mem q with
      | some u =>
        if u.status = .blocked ∧ u.pc.isAsleep then some (s.threadUnblock q) else none
      | none => none

/-- After `thread_start`: the initial thread runs, the idle thread is blocked. -/
def boot : Threads where
  mem := fun p =>
    if p = 0 then some ⟨1, .running, [], none, false, .user⟩
    else if p = 1 then some ⟨2, .blocked, [], none, false, .asleep .user⟩ else none
  allList := [0, 1]
  nextTid := 3
  panicked := false
  corrupted := false
  log := []

end Threads

end Pintos
