/-
  No thread starves (threads/thread.c).

  The ready list is a queue, and a thread runs for at most `TIME_SLICE` ticks, so that a READY thread waits
  at most one slice for each thread before it.
-/
import Pintos.Lib.Simulation
import Pintos.Sched.Switch

namespace Pintos.Sched

open Lib Scheduler List

variable {s s' : Scheduler} {p : Page} {c : Call} {calls : List Call}

def Scheduler.Moves (s : Scheduler) (c : Call) (s' : Scheduler) : Prop := s.SparesIdle c ∧ s.step c = some s'

def Scheduler.Call.isTick : Call → Bool
  | .tick => true
  | _ => false

/-- The ticks after which the thread runs at the latest. -/
def Scheduler.ticksLeft (s : Scheduler) (p : Page) : ℕ :=
  timeSlice * s.readyList.idxOf p + (timeSlice - min s.threadTicks (timeSlice - 1))

/-- The thread runs, or it is READY and has at most `n` ticks to wait. -/
def Scheduler.Turn (s : Scheduler) (p : Page) (n : ℕ) : Prop := s.current = p ∨ p ∈ s.readyList ∧ s.ticksLeft p ≤ n

theorem slices_lt_ticksLeft (s : Scheduler) (p : Page) : timeSlice * s.readyList.idxOf p < s.ticksLeft p := by
  unfold ticksLeft timeSlice
  omega

theorem schedule_next (s : Scheduler) : s.schedule.readyList = s.readyList.tail ∧
    s.schedule.current = s.readyList.headD s.idleThread ∧ s.schedule.threadTicks = 0 := by
  unfold schedule
  rw [nextThreadToRun_eq]
  dsimp only
  split_ifs with hne
  · unfold threadScheduleTail
    dsimp only
    split_ifs
    · unfold freePage
      split <;> exact ⟨rfl, rfl, rfl⟩
    · exact ⟨rfl, rfl, rfl⟩
  · exact ⟨rfl, not_not.1 hne, rfl⟩

/-- **A switch** takes the head of the ready list. -/
theorem schedule_turn {l : List Page} (hp : p ∈ s.readyList) (hl : s'.readyList = s.readyList ++ l) :
    s'.schedule.Turn p (timeSlice * s.readyList.idxOf p) := by
  obtain ⟨hready, hcurrent, hticks⟩ := schedule_next s'
  unfold Scheduler.Turn ticksLeft
  rw [hready, hcurrent, hticks, hl]
  cases hs : s.readyList with
  | nil =>
    rw [hs] at hp
    cases hp
  | cons q l =>
    by_cases hq : q = p
    · exact .inl hq
    · rw [hs] at hp
      have hp := (mem_cons.1 hp).resolve_left (Ne.symm hq)
      refine .inr ⟨mem_append_left _ hp, ?_⟩
      rw [cons_append, tail_cons, idxOf_cons_ne _ hq, idxOf_append_of_mem hp]
      unfold timeSlice
      omega

theorem yield_turn (hp : p ∈ s.readyList) : s.threadYield.Turn p (timeSlice * s.readyList.idxOf p) := by
  unfold threadYield
  split_ifs
  · exact schedule_turn hp rfl
  · exact schedule_turn hp (append_nil _).symm

theorem step_turn (hp : p ∈ s.readyList) (hstep : s.step c = some s') : s'.Turn p (s.ticksLeft p - if c.isTick then 1 else 0) := by
  have hlt := slices_lt_ticksLeft s p
  have hswitch : ∀ {t : Scheduler}, t.Turn p (timeSlice * s.readyList.idxOf p) →
      t.Turn p (s.ticksLeft p - if c.isTick then 1 else 0) :=
    fun ht => ht.imp_right fun ht => ⟨ht.1, ht.2.trans (by split_ifs <;> omega)⟩
  have hpush : ∀ {t : Scheduler} {q : Page}, t.readyList = s.readyList ++ [q] → t.threadTicks = s.threadTicks →
      t.Turn p (s.ticksLeft p) := by
    intro t q hready hticks
    refine .inr ⟨by rw [hready]; exact mem_append_left _ hp, ?_⟩
    unfold ticksLeft
    rw [hready, hticks, idxOf_append_of_mem hp]
  cases c with
  | create page =>
    simp only [step] at hstep
    split_ifs at hstep
    cases hstep
    cases page with
    | none => exact .inr ⟨hp, le_rfl⟩
    | some q => exact hpush rfl rfl
  | block =>
    cases hstep
    exact hswitch (schedule_turn hp (append_nil _).symm)
  | unblock q =>
    simp only [step] at hstep
    split_ifs at hstep
    cases hstep
    exact hpush rfl rfl
  | yield =>
    cases hstep
    exact hswitch (yield_turn hp)
  | tick =>
    cases hstep
    unfold threadTick
    by_cases hslice : timeSlice ≤ s.threadTicks + 1
    · rw [if_pos hslice]
      exact hswitch (yield_turn hp)
    · rw [if_neg hslice]
      refine .inr ⟨hp, ?_⟩
      change _ ≤ _ - 1
      unfold ticksLeft timeSlice at *
      dsimp only
      omega
  | exit =>
    simp only [step] at hstep
    split_ifs at hstep
    cases hstep
    exact hswitch (schedule_turn hp (append_nil _).symm)

theorem runs_turn (h : SchedInv s) (hrun : Runs Moves s calls s') (hp : p ∈ s.readyList)
    (hticks : s.ticksLeft p ≤ calls.countP Call.isTick) :
    ∃ before t, before <+: calls ∧ Runs Moves s before t ∧ t.status p = some .running := by
  induction hrun with
  | @nil s =>
    have := slices_lt_ticksLeft s p
    rw [countP_nil] at hticks
    omega
  | @cons s t _ c calls hstep _ ih =>
    have ht := step_schedInv h hstep.1 hstep.2
    rcases step_turn hp hstep.2 with rfl | ⟨hready, hle⟩
    · exact ⟨[c], t, ⟨calls, rfl⟩, .cons hstep .nil, ht.current⟩
    · -- what is left falls with every tick
      have hrest : t.ticksLeft p ≤ calls.countP Call.isTick := by
        rw [countP_cons] at hticks
        omega
      obtain ⟨before, u, hcalls, hbefore, hu⟩ := ih ht hready hrest
      exact ⟨c :: before, u, (prefix_cons_inj c).2 hcalls, .cons hstep hbefore, hu⟩

/-- **No thread starves.**  In every run from a reachable state, a READY thread behind `k` others has run when the
    timer has ticked `TIME_SLICE * (k + 1)` times. -/
theorem ready_thread_runs {initial idle : Page} (hne : initial ≠ idle) {preempted : Bool} {ticks : ℕ}
    (h : Reaches step SparesIdle (start initial idle preempted ticks) s) (hp : s.status p = some .ready) (hi : p ≠ s.idleThread)
    (hrun : Runs Moves s calls s') (hticks : timeSlice * (s.readyList.idxOf p + 1) ≤ calls.countP Call.isTick) :
    ∃ before t, before <+: calls ∧ Runs Moves s before t ∧ t.status p = some .running := by
  have hinv : SchedInv s := h.invariant (start_schedInv hne preempted ticks) fun _ _ _ hs hok hstep => step_schedInv hs hok hstep
  have hleft : s.ticksLeft p ≤ timeSlice * (s.readyList.idxOf p + 1) := by
    unfold ticksLeft
    rw [Nat.mul_add_one]
    omega
  exact runs_turn hinv hrun ((hinv.queue.mem_iff p).2 ⟨hp, hi⟩) (hleft.trans hticks)

theorem ready_thread_runs_created : ∃ before t, before <+: replicate 4 Call.tick ∧
    Runs Moves ((start 0 1 false 0).threadCreate (some 2)) before t ∧ t.status 2 = some .running := by
  have hcreate : StepOk step SparesIdle (start 0 1 false 0) ((start 0 1 false 0).threadCreate (some 2)) := by
    refine ⟨.create (some 2), Call.noConfusion, ?_⟩
    simp only [step]
    exact if_pos (by rintro _ ⟨⟩; rfl)
  have htick : ∀ s : Scheduler, s.Moves .tick s.threadTick := fun s => ⟨Call.noConfusion, rfl⟩
  have hrun : Runs Moves ((start 0 1 false 0).threadCreate (some 2)) (replicate 4 .tick) _ :=
    .cons (htick _) (.cons (htick _) (.cons (htick _) (.cons (htick _) .nil)))
  exact ready_thread_runs (by decide) (.single hcreate) rfl (by decide) hrun (by decide)

end Pintos.Sched
