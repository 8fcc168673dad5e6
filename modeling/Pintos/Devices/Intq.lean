/-
  Interrupt queues (devices/intq.c).

  Threads call `intq_getc` and `intq_putc` with interrupts off, and interrupt handlers call them where they
  need not wait.  A thread runs alone until it is blocked, in `lock_acquire` or in `wait`, or returns; it
  goes on some time after it was unblocked.  These parts of the calls are the steps.
-/
import Pintos.Lib.Ring
import Pintos.Synch.Semaphore

namespace Pintos.Devices

open Lib Synch Function

universe u

/-- `INTQ_BUFSIZE`. -/
def intqBufsize : ℕ := 64

/-- The call of a thread. -/
inductive Want where
  | getc
  | putc (byte : UInt8)
  deriving DecidableEq, Repr

/-- The members of the queue that `waiter` may point to. -/
inductive Waiter where
  | notEmpty
  | notFull
  deriving DecidableEq, Repr

/-- What a call waits for. -/
def Want.waiter : Want → Waiter
  | .getc => .notEmpty
  | .putc _ => .notFull

/-- Where a thread stopped: in no call; in `lock_acquire`, blocked or unblocked since; in `wait`,
    blocked or unblocked since. -/
inductive Place where
  | outside
  | lockBlocked (w : Want)
  | lockUnblocked (w : Want)
  | waitBlocked (w : Want)
  | waitUnblocked (w : Want)
  deriving DecidableEq, Repr

/-- `struct intq`, and its threads.  `failed` is a failed assertion. -/
structure Intq (τ : Type u) where
  ring : RingBuffer UInt8
  /-- `lock.semaphore` and `lock.holder` -/
  semaphore : Semaphore τ
  holder : Option τ
  waiters : Waiter → Option τ
  place : τ → Place
  failed : Bool

inductive IntqStep (τ : Type u) where
  /-- a thread makes a call, or goes on after it was unblocked -/
  | call (t : τ) (w : Want)
  | resume (t : τ)
  /-- an interrupt handler makes a call -/
  | handler (w : Want)

namespace Intq

variable {τ : Type u}

/-- `intq_init`. -/
def init : Intq τ where
  ring := ⟨fun _ => 0, 0, 0⟩
  semaphore := .init 1
  holder := none
  waiters _ := none
  place _ := .outside
  failed := false

/-- The condition that is waited for does not hold: the queue is empty, or full. -/
def Lacks (q : Intq τ) : Waiter → Prop
  | .notEmpty => q.ring.Empty
  | .notFull => q.ring.Full intqBufsize

instance (q : Intq τ) (c : Waiter) : Decidable (q.Lacks c) :=
  match c with
  | .notEmpty => inferInstanceAs (Decidable q.ring.Empty)
  | .notFull => inferInstanceAs (Decidable (q.ring.Full intqBufsize))

def assert (q : Intq τ) (p : Prop) [Decidable p] : Intq τ := { q with failed := q.failed || decide (¬ p) }

def setRing (q : Intq τ) (ring : RingBuffer UInt8) : Intq τ := { q with ring }

section
variable [DecidableEq τ]

def setPlace (q : Intq τ) (t : τ) (p : Place) : Intq τ := { q with place := update q.place t p }

/-- `thread_unblock`. -/
def unblock (q : Intq τ) (t : τ) : Intq τ :=
  match q.place t with
  | .lockBlocked w => q.setPlace t (.lockUnblocked w)
  | .waitBlocked w => q.setPlace t (.waitUnblocked w)
  | _ => q.assert False

def wait (q : Intq τ) (t : τ) (w : Want) : Intq τ :=
  let q := q.assert (q.Lacks w.waiter)
  { q.setPlace t (.waitBlocked w) with waiters := update q.waiters w.waiter (some t) }

def signal (q : Intq τ) (c : Waiter) : Intq τ :=
  let q := q.assert (¬ q.Lacks c)
  match q.waiters c with
  | some t => { q.unblock t with waiters := update q.waiters c none }
  | none => q

/-- A pass of the loop of `sema_down` in `lock_acquire`, and `wait`. -/
def acquire (q : Intq τ) (t : τ) (w : Want) : Intq τ :=
  if (q.semaphore.down t).2 then wait { q with semaphore := (q.semaphore.down t).1, holder := some t } t w
  else { q.setPlace t (.lockBlocked w) with semaphore := (q.semaphore.down t).1 }

/-- `lock_release`. -/
def release (q : Intq τ) (t : τ) : Intq τ :=
  let q := q.assert (q.holder = some t)
  let free := { q with semaphore := q.semaphore.up.1, holder := none }
  match q.semaphore.up.2 with
  | some v => free.unblock v
  | none => free

/-- What is done when there is a byte, or room for one. -/
def transfer (q : Intq τ) : Want → Intq τ
  | .getc => (q.setRing (q.ring.take intqBufsize)).signal .notFull
  | .putc byte => (q.setRing (q.ring.put intqBufsize byte)).signal .notEmpty

/-- `intq_getc` and `intq_putc`, from the test of the loop on. -/
def loop (q : Intq τ) (t : τ) (w : Want) : Intq τ :=
  if q.Lacks w.waiter then (q.assert (q.holder ≠ some t)).acquire t w else q.transfer w

def step (q : Intq τ) (l : IntqStep τ) : Option (Intq τ) :=
  if q.failed then none
  else match l with
    | .call t w => if q.place t = .outside then some (q.loop t w) else none
    | .resume t =>
      match q.place t with
      | .lockUnblocked w => some ((q.setPlace t .outside).acquire t w)
      | .waitUnblocked w => some (((q.setPlace t .outside).release t).loop t w)
      | _ => none
    | .handler w => if q.Lacks w.waiter then none else some (q.transfer w)

/-- A thread that makes a call finds the queue empty, or full, only while nobody has the lock. -/
def Uncontended (q : Intq τ) : IntqStep τ → Prop
  | .call _ w => q.Lacks w.waiter → q.holder = none
  | _ => True

instance (q : Intq τ) (l : IntqStep τ) : Decidable (q.Uncontended l) :=
  match l with
  | .call _ w => inferInstanceAs (Decidable (q.Lacks w.waiter → q.holder = none))
  | .resume _ => inferInstanceAs (Decidable True)
  | .handler _ => inferInstanceAs (Decidable True)

end

end Intq

/-! ## Assertions hold without contention -/

/-- Nobody waits for the lock, and its holder is the thread in `wait`. -/
structure IntqInv {τ : Type u} (q : Intq τ) : Prop where
  inside : q.ring.Inside intqBufsize
  lockWaiters : q.semaphore.waiters = []
  value : q.semaphore.value = if q.holder = none then 1 else 0
  place : ∀ t w, q.place t ≠ .lockBlocked w ∧ q.place t ≠ .lockUnblocked w
  holder : ∀ t, q.holder = some t ↔ q.place t ≠ .outside
  waiters : ∀ c t, q.waiters c = some t ↔ ∃ w, w.waiter = c ∧ q.place t = .waitBlocked w
  failed : q.failed = false

section
variable {τ : Type u} {q : Intq τ} {t v : τ} {w : Want} {c : Waiter}

theorem intqInv_init : IntqInv (.init : Intq τ) where
  inside := ⟨Nat.zero_lt_succ 63, Nat.zero_lt_succ 63⟩
  lockWaiters := rfl
  value := rfl
  place _ _ := ⟨nofun, nofun⟩
  holder _ := ⟨nofun, fun h => absurd rfl h⟩
  waiters _ _ := ⟨nofun, nofun⟩
  failed := rfl

theorem Intq.assert_of {p : Prop} [Decidable p] (hp : p) : q.assert p = q := by
  unfold Intq.assert
  rw [decide_eq_false (not_not.2 hp), Bool.or_false]

theorem IntqInv.setRing {r : RingBuffer UInt8} (h : IntqInv q) (hr : r.Inside intqBufsize) : IntqInv (q.setRing r) :=
  ⟨hr, h.lockWaiters, h.value, h.place, h.holder, h.waiters, h.failed⟩

theorem IntqInv.outside (h : IntqInv q) (hfree : q.holder = none) (v : τ) : q.place v = .outside := by
  by_contra hv
  have := (h.holder v).2 hv
  rw [hfree] at this
  cases this

variable [DecidableEq τ]

/-! The functions where nobody waits for the lock. -/

theorem Intq.signal_none (hc : ¬ q.Lacks c) (hw : q.waiters c = none) : q.signal c = q := by
  unfold Intq.signal
  rw [Intq.assert_of hc]
  simp only [hw]

theorem Intq.signal_some (hc : ¬ q.Lacks c) (hw : q.waiters c = some v) (hv : q.place v = .waitBlocked w) :
    q.signal c = { q with
      waiters := update q.waiters c none, place := update q.place v (.waitUnblocked w) } := by
  unfold Intq.signal
  rw [Intq.assert_of hc]
  simp only [hw, Intq.unblock, hv, Intq.setPlace]

theorem Intq.acquire_free (hvalue : q.semaphore.value = 1) (hw : q.Lacks w.waiter) :
    q.acquire t w = { q with
      semaphore := ⟨0, q.semaphore.waiters⟩
      holder := some t
      waiters := update q.waiters w.waiter (some t)
      place := update q.place t (.waitBlocked w) } := by
  have hdown : q.semaphore.down t = (⟨0, q.semaphore.waiters⟩, true) := by simp [Semaphore.down, hvalue]
  unfold Intq.acquire
  rw [hdown, if_pos rfl]
  unfold Intq.wait
  rw [Intq.assert_of (by cases w <;> exact hw)]
  rfl

theorem Intq.release_free (hholder : q.holder = some t) (hsema : q.semaphore = ⟨0, []⟩) :
    q.release t = { q with semaphore := ⟨1, []⟩, holder := none } := by
  unfold Intq.release
  rw [Intq.assert_of hholder]
  dsimp only
  rw [hsema]
  rfl

theorem IntqInv.signal (h : IntqInv q) (hc : ¬ q.Lacks c) : IntqInv (q.signal c) := by
  cases hw : q.waiters c with
  | none => rwa [Intq.signal_none hc hw]
  | some v =>
    obtain ⟨w, rfl, hv⟩ := (h.waiters c v).1 hw
    rw [Intq.signal_some hc hw hv]
    refine ⟨h.inside, h.lockWaiters, h.value, fun u w' => ?_, fun u => ?_, fun c' u => ?_, h.failed⟩
    · simp only [update_apply]
      split_ifs
      · simp
      · exact h.place u w'
    · simp only [update_apply, h.holder u]
      split_ifs with hu
      · simp [hu, hv]
      · rfl
    · simp only [update_apply]
      by_cases hu : u = v
      · -- a thread waits for one thing only
        have hother : q.waiters c' = some v → c' = w.waiter := by
          intro hcv
          obtain ⟨w', rfl, hv'⟩ := (h.waiters c' v).1 hcv
          rw [hv] at hv'
          rw [Place.waitBlocked.inj hv']
        rw [if_pos hu, hu]
        split_ifs with hcw
        · simp
        · simp only [and_false, exists_false, iff_false]
          exact fun hcv => hcw (hother hcv)
      · rw [if_neg hu]
        split_ifs with hcw
        · rw [hcw, ← h.waiters, hw]
          simp [Ne.symm hu]
        · exact h.waiters c' u

theorem IntqInv.transfer (h : IntqInv q) (hw : ¬ q.Lacks w.waiter) : IntqInv (q.transfer w) := by
  cases w with
  | getc =>
    apply (h.setRing h.inside.take).signal
    exact RingBuffer.not_full_take h.inside hw
  | putc byte =>
    apply (h.setRing (h.inside.put byte)).signal
    exact RingBuffer.not_empty_put h.inside hw byte

theorem IntqInv.acquire (h : IntqInv q) (hfree : q.holder = none) (hw : q.Lacks w.waiter) : IntqInv (q.acquire t w) := by
  have hout := h.outside hfree
  have hwaiters : ∀ c v, q.waiters c ≠ some v := by
    intro c v hv
    obtain ⟨w', -, hv⟩ := (h.waiters c v).1 hv
    rw [hout v] at hv
    cases hv
  rw [Intq.acquire_free (by rw [h.value, if_pos hfree]) hw]
  refine ⟨h.inside, h.lockWaiters, rfl, fun v w' => ?_, fun v => ?_, fun c v => ?_, h.failed⟩
  · simp only [update_apply, hout]
    split_ifs <;> simp
  · simp only [update_apply, hout]
    split_ifs with hv
    · simp [hv]
    · simp [Ne.symm hv]
  · simp only [update_apply, hout]
    split_ifs with hc hv hv
    · simp [hc, hv]
    · simp [Ne.symm hv]
    · simp only [hwaiters, Place.waitBlocked.injEq, false_iff, not_exists, not_and]
      rintro w' rfl rfl
      exact hc rfl
    · simp [hwaiters]

theorem IntqInv.loop (h : IntqInv q) (hfree : q.Lacks w.waiter → q.holder = none) : IntqInv (q.loop t w) := by
  unfold Intq.loop
  split_ifs with hw
  · rw [Intq.assert_of (by rw [hfree hw]; nofun)]
    exact h.acquire (hfree hw) hw
  · exact h.transfer hw

theorem IntqInv.release (h : IntqInv q) (ht : q.place t = .waitUnblocked w) :
    IntqInv ((q.setPlace t .outside).release t) ∧ ((q.setPlace t .outside).release t).holder = none := by
  have hholder : q.holder = some t := (h.holder t).2 (by rw [ht]; nofun)
  have hsema : q.semaphore = ⟨0, []⟩ := by
    have hvalue : q.semaphore.value = 0 := by rw [h.value, if_neg (by rw [hholder]; nofun)]
    rw [← hvalue, ← h.lockWaiters]
  have hout : ∀ v, v ≠ t → q.place v = .outside := by
    intro v hv
    by_contra hne
    have := (h.holder v).2 hne
    rw [hholder] at this
    exact hv (Option.some.inj this).symm
  rw [Intq.release_free (q := q.setPlace t .outside) hholder hsema]
  refine ⟨⟨h.inside, rfl, rfl, fun v w' => ?_, fun v => ?_, fun c v => ?_, h.failed⟩, rfl⟩
  · simp only [Intq.setPlace, update_apply]
    split_ifs with hv
    · simp
    · simp [hout v hv]
  · simp only [Intq.setPlace, update_apply]
    split_ifs with hv
    · simp
    · simp [hout v hv]
  · simp only [Intq.setPlace, update_apply, h.waiters]
    split_ifs with hv
    · simp [hv, ht]
    · rfl

theorem IntqInv.step {q' : Intq τ} {l : IntqStep τ} (h : IntqInv q) (hl : q.Uncontended l) (hstep : q.step l = some q') :
    IntqInv q' := by
  unfold Intq.step at hstep
  rw [if_neg (by rw [h.failed]; nofun)] at hstep
  cases l with
  | call t w =>
    dsimp only at hstep
    split_ifs at hstep with ht
    cases hstep
    exact h.loop hl
  | resume t =>
    cases ht : q.place t with
    | lockUnblocked w => exact absurd ht (h.place t w).2
    | waitUnblocked w =>
      simp only [ht] at hstep
      cases hstep
      obtain ⟨hrel, hfree⟩ := h.release ht
      exact hrel.loop fun _ => hfree
    | _ =>
      simp only [ht] at hstep
      cases hstep
  | handler w =>
    dsimp only at hstep
    split_ifs at hstep with hw
    cases hstep
    exact h.transfer hw

/-- **Interrupt queues.**  If threads find the queue empty or full only while nobody has its lock, no
    assertion fails, in any order of the steps. -/
theorem assertions_hold (h : Reaches Intq.step Intq.Uncontended (.init : Intq τ) q) : q.failed = false :=
  (h.invariant intqInv_init fun _ _ _ hq hl hstep => hq.step hl hstep).failed

end

/-- A thread waits for a byte and gets it. -/
theorem assertions_hold_getc : ∃ q : Intq Bool, Reaches Intq.step Intq.Uncontended .init q ∧ q.ring.tail = 1 ∧ q.failed = false := by
  obtain ⟨q, hq, htail⟩ := reaches_of_run Intq.step Intq.Uncontended (.init : Intq Bool)
    [.call false .getc, .handler (.putc 97), .resume false] (fun q => q.ring.tail == 1) (by decide +kernel)
  exact ⟨q, hq, beq_iff_eq.1 htail, assertions_hold hq⟩

/-! ## A failed assertion -/

/-- Two threads read, and two bytes come before the first of them goes on: the second finds the queue
    not empty when it has the lock. -/
theorem wait_fails : ∃ q : Intq Bool, Reaches Intq.step anyStep .init q ∧ q.failed = true :=
  reaches_of_run Intq.step anyStep .init
    [.call false .getc, .call true .getc, .handler (.putc 97), .handler (.putc 98), .resume false, .resume true]
    (·.failed) (by decide +kernel)

end Pintos.Devices
