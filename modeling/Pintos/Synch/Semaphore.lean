/-
  Semaphores (threads/synch.c).

  Every operation runs with interrupts off: a pass of the loop of `sema_down`, `sema_try_down` and `sema_up`
  are the steps.  A thread that `sema_up` unblocks tests the value again when it is scheduled, and another
  thread may have taken the unit; it then waits again.
-/
import Mathlib.Data.Set.Card
import Mathlib.Tactic
import Pintos.Lib.Steps

namespace Pintos.Synch

open Lib Function List

universe u
variable {τ : Type u}

/-- `struct semaphore`. -/
structure Semaphore (τ : Type u) where
  value : ℕ
  waiters : List τ

namespace Semaphore

/-- `sema_init`. -/
def init (value : ℕ) : Semaphore τ := ⟨value, []⟩

/-- One pass of the loop of `sema_down`: whether it is left. -/
def down (s : Semaphore τ) (t : τ) : Semaphore τ × Bool :=
  if s.value = 0 then (⟨s.value, s.waiters ++ [t]⟩, false) else (⟨s.value - 1, s.waiters⟩, true)

/-- `sema_try_down`. -/
def tryDown (s : Semaphore τ) : Semaphore τ × Bool :=
  if 0 < s.value then (⟨s.value - 1, s.waiters⟩, true) else (s, false)

/-- `sema_up`, and the thread that it unblocks. -/
def up (s : Semaphore τ) : Semaphore τ × Option τ :=
  match s.waiters with
  | [] => (⟨(s.value + 1) % 2 ^ 32, []⟩, none)
  | t :: ts => (⟨(s.value + 1) % 2 ^ 32, ts⟩, some t)

end Semaphore

/-- Where a thread is: not in `sema_down`, blocked there, or unblocked and not scheduled since. -/
inductive Phase where
  | outside
  | blocked
  | unblocked
  deriving DecidableEq, Repr

/-- A semaphore with its threads; the completed operations are counted.  `failed` is a failed
    assertion of `thread_unblock`. -/
structure Sema (τ : Type u) where
  sema : Semaphore τ
  phase : τ → Phase
  ups : ℕ
  downs : ℕ
  failed : Bool

namespace Sema

/-- After `sema_init`. -/
def init (v : ℕ) : Sema τ := ⟨.init v, fun _ => .outside, 0, 0, false⟩

end Sema

/-- A thread calls `sema_down` or is scheduled in it again; a thread or an interrupt handler calls
    `sema_try_down` or `sema_up`. -/
inductive SemaCall (τ : Type u) where
  | down (t : τ)
  | resume (t : τ)
  | tryDown
  | up

section
variable [DecidableEq τ]

/-- A pass of the loop of `sema_down`. -/
def Sema.pass (s : Sema τ) (t : τ) : Sema τ :=
  if (s.sema.down t).2 then
    { s with sema := (s.sema.down t).1, phase := update s.phase t .outside, downs := s.downs + 1 }
  else { s with sema := (s.sema.down t).1, phase := update s.phase t .blocked }

def Sema.step (s : Sema τ) : SemaCall τ → Option (Sema τ)
  | .down t => if s.phase t = .outside then some (s.pass t) else none
  | .resume t => if s.phase t = .unblocked then some (s.pass t) else none
  | .tryDown =>
    some { s with sema := s.sema.tryDown.1, downs := if s.sema.tryDown.2 then s.downs + 1 else s.downs }
  | .up =>
    match s.sema.up.2 with
    | none => some { s with sema := s.sema.up.1, ups := s.ups + 1 }
    | some t =>
      some { s with
        sema := s.sema.up.1
        phase := update s.phase t .unblocked
        ups := s.ups + 1
        failed := s.failed || decide (s.phase t ≠ .blocked) }

end

/-- The threads that were unblocked and have not tested the value since. -/
def Sema.woken (s : Sema τ) : Set τ := {t | s.phase t = .unblocked}

/-- What holds of a semaphore with the initial value `v`. -/
structure SemaphoreOk (v : ℕ) (s : Sema τ) : Prop where
  downs_le : s.downs ≤ v + s.ups
  value : s.sema.value = (v + s.ups - s.downs) % 2 ^ 32
  waiters_nodup : s.sema.waiters.Nodup
  waiters_blocked : ∀ t ∈ s.sema.waiters, s.phase t = .blocked
  woken : s.sema.waiters ≠ [] → s.sema.value ≤ s.woken.ncard
  asserts : s.failed = false

/-! ## The invariant -/

/-- The threads on the list are the blocked ones, and finitely many are unblocked. -/
structure SemaInv (v : ℕ) (s : Sema τ) : Prop extends SemaphoreOk v s where
  mem_waiters : ∀ t, s.phase t = .blocked → t ∈ s.sema.waiters
  finite : s.woken.Finite

variable {s s' : Sema τ} {v : ℕ} {t : τ}

theorem semaInv_init (hv : v < 2 ^ 32) : SemaInv v (Sema.init v : Sema τ) where
  downs_le := Nat.zero_le _
  value := (Nat.mod_eq_of_lt hv).symm
  waiters_nodup := nodup_nil
  waiters_blocked := nofun
  woken h := absurd rfl h
  asserts := rfl
  mem_waiters _ h := nomatch h
  finite := by
    have : (Sema.init v : Sema τ).woken = ∅ := Set.eq_empty_of_forall_notMem fun t h => nomatch h
    rw [this]
    exact Set.finite_empty

section
variable [DecidableEq τ]

theorem woken_pass (s : Sema τ) (t : τ) : (s.pass t).woken = s.woken \ {t} := by
  ext t'
  unfold Sema.pass Sema.woken
  by_cases h : t' = t
  · subst h
    split_ifs <;> simp
  · split_ifs <;> simp [h]

theorem SemaInv.pass (h : SemaInv v s) (ht : s.phase t ≠ .blocked) : SemaInv v (s.pass t) := by
  have hne : ∀ t' ∈ s.sema.waiters, t' ≠ t := by
    rintro t' ht' rfl
    exact ht (h.waiters_blocked t' ht')
  have hfinite : (s.pass t).woken.Finite := by
    rw [woken_pass]
    exact h.finite.sdiff
  have hwoken := woken_pass s t
  have hvalue := h.value
  have hdowns := h.downs_le
  unfold Sema.pass Semaphore.down at hfinite hwoken ⊢
  by_cases h0 : s.sema.value = 0
  · simp only [if_pos h0, Bool.false_eq_true, if_false] at hfinite hwoken ⊢
    refine ⟨⟨hdowns, hvalue, ?_, fun t' ht' => ?_, fun _ => ?_, h.asserts⟩, fun t' ht' => ?_, hfinite⟩
    · rw [nodup_append]
      exact ⟨h.waiters_nodup, nodup_singleton t, fun a ha b hb => by rw [mem_singleton.1 hb]; exact hne a ha⟩
    · dsimp only
      rcases mem_append.1 ht' with ht' | ht'
      · rw [update_of_ne (hne t' ht')]
        exact h.waiters_blocked t' ht'
      · rw [mem_singleton.1 ht', update_self]
    · exact h0.le.trans (Nat.zero_le _)
    · dsimp only at ht'
      by_cases heq : t' = t
      · exact mem_append_right _ (mem_singleton.2 heq)
      · rw [update_of_ne heq] at ht'
        exact mem_append_left _ (h.mem_waiters t' ht')
  · simp only [if_neg h0, if_true] at hfinite hwoken ⊢
    refine ⟨⟨by dsimp only; omega, by dsimp only; omega, h.waiters_nodup, fun t' ht' => ?_, fun hw => ?_, h.asserts⟩,
      fun t' ht' => ?_, hfinite⟩
    · dsimp only
      rw [update_of_ne (hne t' ht')]
      exact h.waiters_blocked t' ht'
    · have := h.woken hw
      have := Set.pred_ncard_le_ncard_sdiff_singleton s.woken t
      rw [hwoken]
      dsimp only
      omega
    · dsimp only at ht'
      have heq : t' ≠ t := by
        rintro rfl
        rw [update_self] at ht'
        cases ht'
      rw [update_of_ne heq] at ht'
      exact h.mem_waiters t' ht'

theorem SemaInv.tryDown (h : SemaInv v s) (hstep : s.step .tryDown = some s') : SemaInv v s' := by
  cases hstep
  have hvalue := h.value
  have hdowns := h.downs_le
  unfold Semaphore.tryDown
  by_cases h0 : 0 < s.sema.value
  · simp only [if_pos h0, if_true]
    refine ⟨⟨?_, ?_, h.waiters_nodup, h.waiters_blocked, fun hw => ?_, h.asserts⟩, h.mem_waiters, h.finite⟩
    · dsimp only; omega
    · dsimp only; omega
    · exact (Nat.sub_le _ _).trans (h.woken hw)
  · simp only [if_neg h0, Bool.false_eq_true, if_false]
    exact ⟨⟨hdowns, hvalue, h.waiters_nodup, h.waiters_blocked, h.woken, h.asserts⟩, h.mem_waiters, h.finite⟩

theorem SemaInv.up (h : SemaInv v s) (hstep : s.step .up = some s') : SemaInv v s' := by
  have hvalue := h.value
  have hdowns := h.downs_le
  have hup : (s.sema.value + 1) % 2 ^ 32 = (v + (s.ups + 1) - s.downs) % 2 ^ 32 := by omega
  unfold Sema.step Semaphore.up at hstep
  cases hw : s.sema.waiters with
  | nil =>
    simp only [hw] at hstep
    cases hstep
    refine ⟨⟨by dsimp only; omega, hup, nodup_nil, nofun, fun hne => absurd rfl hne, h.asserts⟩, fun t ht => ?_, h.finite⟩
    have := h.mem_waiters t ht
    rwa [hw] at this
  | cons t ts =>
    simp only [hw] at hstep
    cases hstep
    have hnodup := h.waiters_nodup
    rw [hw, nodup_cons] at hnodup
    have ht : s.phase t = .blocked := h.waiters_blocked t (by rw [hw]; exact mem_cons_self)
    have hne : ∀ t' ∈ ts, t' ≠ t := by
      rintro t' ht' rfl
      exact hnodup.1 ht'
    have hwoken : ({s with phase := update s.phase t .unblocked} : Sema τ).woken = insert t s.woken := by
      ext t'
      unfold Sema.woken
      by_cases heq : t' = t
      · simp [heq]
      · simp [heq]
    have hnot : t ∉ s.woken := by
      intro hmem
      rw [show s.phase t = .unblocked from hmem] at ht
      cases ht
    refine ⟨⟨by dsimp only; omega, hup, hnodup.2, fun t' ht' => ?_, fun _ => ?_, ?_⟩, fun t' ht' => ?_, ?_⟩
    · dsimp only
      rw [update_of_ne (hne t' ht')]
      exact h.waiters_blocked t' (by rw [hw]; exact mem_cons_of_mem _ ht')
    · have hle := h.woken (by rw [hw]; exact cons_ne_nil _ _)
      have hcard := Set.ncard_insert_of_notMem hnot h.finite
      have hmod := Nat.mod_le (s.sema.value + 1) (2 ^ 32)
      change (s.sema.value + 1) % 2 ^ 32 ≤ Set.ncard ({s with phase := update s.phase t .unblocked} : Sema τ).woken
      rw [hwoken, hcard]
      omega
    · rw [h.asserts, Bool.false_or, decide_eq_false_iff_not, not_not]
      exact ht
    · dsimp only at ht'
      have heq : t' ≠ t := by
        rintro rfl
        rw [update_self] at ht'
        cases ht'
      rw [update_of_ne heq] at ht'
      have := h.mem_waiters t' ht'
      rw [hw] at this
      exact (mem_cons.1 this).resolve_left heq
    · change ({s with phase := update s.phase t .unblocked} : Sema τ).woken.Finite
      rw [hwoken]
      exact h.finite.insert t

theorem step_semaInv {c : SemaCall τ} (h : SemaInv v s) (hstep : s.step c = some s') : SemaInv v s' := by
  cases c with
  | down t =>
    simp only [Sema.step] at hstep
    split_ifs at hstep with ht
    cases hstep
    exact h.pass (by rw [ht]; nofun)
  | resume t =>
    simp only [Sema.step] at hstep
    split_ifs at hstep with ht
    cases hstep
    exact h.pass (by rw [ht]; nofun)
  | tryDown => exact h.tryDown hstep
  | up => exact h.up hstep

/-- **Semaphores.**  For any number of threads and in any order of their calls, the value counts
    the operations modulo `2 ^ 32`, the waiters are blocked threads, each once, and while there are
    waiters every unit has a thread that was unblocked and has not tested the value since. -/
theorem semaphore_ok {v : ℕ} (hv : v < 2 ^ 32) {s : Sema τ} (h : Reaches Sema.step anyStep (.init v) s) :
    SemaphoreOk v s := by
  have hinv : SemaInv v s := h.invariant (semaInv_init hv) fun _ _ _ ih _ hstep => step_semaInv ih hstep
  exact hinv.toSemaphoreOk

end

/-- A thread waits, is unblocked, finds that another one took the unit and waits again. -/
theorem semaphore_ok_stolen : ∃ s : Sema ℕ, Reaches Sema.step anyStep (.init 0) s ∧
    (s.sema.waiters == [1] && s.sema.value == 0 && s.downs == 1) = true ∧ SemaphoreOk 0 s := by
  obtain ⟨s, hs, hp⟩ := reaches_of_run Sema.step anyStep (Sema.init 0 : Sema ℕ) [.down 1, .up, .tryDown, .resume 1]
    (fun s => s.sema.waiters == [1] && s.sema.value == 0 && s.downs == 1) (by decide)
  exact ⟨s, hs, hp, semaphore_ok (by decide) hs⟩

/-- The value that follows `2 ^ 32 - 1` is zero. -/
theorem value_wraps : ∃ s : Sema ℕ, Reaches Sema.step anyStep (.init (2 ^ 32 - 1)) s ∧
    s.sema.value = 0 ∧ s.ups = 1 ∧ s.downs = 0 ∧ s.sema.value ≠ 2 ^ 32 - 1 + s.ups - s.downs := by
  obtain ⟨s, hs, hp⟩ := reaches_of_run Sema.step anyStep (Sema.init (2 ^ 32 - 1) : Sema ℕ) [.up]
    (fun s => decide (s.sema.value = 0 ∧ s.ups = 1 ∧ s.downs = 0 ∧ s.sema.value ≠ 2 ^ 32 - 1 + s.ups - s.downs))
    (by decide)
  exact ⟨s, hs, of_decide_eq_true hp⟩

end Pintos.Synch
