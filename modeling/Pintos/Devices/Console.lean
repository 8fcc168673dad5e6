/-
  The lock of the console (lib/kernel/console.c), which threads may acquire again while they hold it.

  Every load and store of `console_lock_depth` and of the lock's holder is a step; `sema_down` and `sema_up` run with
  interrupts off.  A thread waits in `sema_down` as long as the semaphore has no unit.
-/
import Pintos.Lib.Steps
import Mathlib.Tactic

namespace Pintos.Console

open Lib Function

variable {τ : Type*}

/-- Where a thread is; the number says how many acquisitions it has made and not released. -/
inductive Pc where
  | running (n : ℕ)
  /-- `lock_held_by_current_thread` in `acquire_console` -/
  | acquire (n : ℕ)
  /-- `console_lock_depth++`: the load, and the store of what was loaded -/
  | increment (n : ℕ)
  | incremented (n : ℕ) (depth : ℤ)
  /-- `lock_acquire`: its assertion, `sema_down` and the store to `lock->holder` -/
  | lockAcquire (n : ℕ)
  | down (n : ℕ)
  | setHolder (n : ℕ)
  /-- the test of `console_lock_depth` in `release_console` -/
  | release (n : ℕ)
  | decrement (n : ℕ)
  | decremented (n : ℕ) (depth : ℤ)
  /-- `lock_release`: its assertion, the store to `lock->holder` and `sema_up` -/
  | lockRelease (n : ℕ)
  | clearHolder (n : ℕ)
  | up (n : ℕ)
  deriving DecidableEq

structure State (τ : Type*) where
  pc : τ → Pc
  value : ℕ
  holder : Option τ
  consoleLockDepth : ℤ
  /-- an assertion has failed -/
  failed : Bool
  /-- the calls of `acquire_console` less those of `release_console` -/
  opened : τ → ℕ

/-- After `console_init`. -/
def State.init : State τ := ⟨fun _ => .running 0, 1, none, 0, false, fun _ => 0⟩

/-- What a thread does next, outside the functions of the lock. -/
inductive Call where
  | acquire
  | release
  | putchar

section
variable [DecidableEq τ]

def State.go (s : State τ) (t : τ) (p : Pc) : State τ := { s with pc := update s.pc t p }

/-- A step from where a thread is.  The pairs are nested: it releases and writes only what it has acquired. -/
def State.next (s : State τ) (t : τ) (call : Call) : Pc → Option (State τ)
  | .running n =>
      match call with
    | .acquire => some (s.go t (.acquire n))
    | .release => if n = 0 then none else some (s.go t (.release n))
    | .putchar => if n = 0 then none else some (if s.holder = some t then s else { s with failed := true })
  | .acquire n => some (s.go t (if s.holder = some t then .increment n else .lockAcquire n))
  | .increment n => some (s.go t (.incremented n s.consoleLockDepth))
  | .incremented n depth => some { s.go t (.running (n + 1)) with consoleLockDepth := depth + 1 }
  | .lockAcquire n => some (if s.holder = some t then { s with failed := true } else s.go t (.down n))
  | .down n => if s.value = 0 then none else some { s.go t (.setHolder n) with value := s.value - 1 }
  | .setHolder n => some { s.go t (.running (n + 1)) with holder := some t }
  | .release n => some (s.go t (if s.consoleLockDepth > 0 then .decrement n else .lockRelease n))
  | .decrement n => some (s.go t (.decremented n s.consoleLockDepth))
  | .decremented n depth => some { s.go t (.running (n - 1)) with consoleLockDepth := depth - 1 }
  | .lockRelease n => some (if s.holder = some t then s.go t (.clearHolder n) else { s with failed := true })
  | .clearHolder n => some { s.go t (.up n) with holder := none }
  | .up n => some { s.go t (.running (n - 1)) with value := s.value + 1 }

/-- A call is counted when it is made. -/
def State.counted (s : State τ) (t : τ) : Call → Pc → τ → ℕ
  | .acquire, .running _ => update s.opened t (s.opened t + 1)
  | .release, .running _ => update s.opened t (s.opened t - 1)
  | _, _ => s.opened

def State.step (s : State τ) (l : τ × Call) : Option (State τ) :=
  (s.next l.1 l.2 (s.pc l.1)).map fun s' => { s' with opened := s.counted l.1 l.2 (s.pc l.1) }

end

/-- The acquisitions that a thread has made and not released. -/
def Pc.nested : Pc → ℕ
  | .running n | .acquire n | .increment n | .incremented n _ | .lockAcquire n | .down n | .setHolder n
  | .release n | .decrement n | .decremented n _ | .lockRelease n | .clearHolder n | .up n => n

/-- The acquisitions that are left when the call that the thread is in returns. -/
def Pc.left : Pc → ℕ
  | .running n => n
  | .acquire n | .increment n | .incremented n _ | .lockAcquire n | .down n | .setHolder n => n + 1
  | .release n | .decrement n | .decremented n _ | .lockRelease n | .clearHolder n | .up n => n - 1

/-- A thread that has no unit of the semaphore. -/
def Pc.Outside : Pc → Prop
  | .running n | .acquire n | .lockAcquire n | .down n => n = 0
  | _ => False

/-- The thread that has the unit; `held` says whether it is the holder. -/
def Pc.Inside (held : Prop) (depth : ℤ) : Pc → Prop
  | .running n | .acquire n | .increment n | .release n => held ∧ depth + 1 = n
  | .incremented n v => held ∧ depth + 1 = n ∧ v = depth
  | .decrement n => held ∧ depth + 1 = n ∧ 0 < depth
  | .decremented n v => held ∧ depth + 1 = n ∧ 0 < depth ∧ v = depth
  | .setHolder n => ¬held ∧ depth = 0 ∧ n = 0
  | .lockRelease n | .clearHolder n => held ∧ depth = 0 ∧ n = 1
  | .up n => ¬held ∧ depth = 0 ∧ n = 1
  | _ => False

/-- Nobody has the unit. -/
structure Free (s : State τ) : Prop where
  passed : s.failed = false
  value : s.value = 1
  holder : s.holder = none
  depth : s.consoleLockDepth = 0
  outside : ∀ u, (s.pc u).Outside

/-- One thread has it. -/
structure Owned (s : State τ) (t : τ) : Prop where
  passed : s.failed = false
  value : s.value = 0
  holder : s.holder = none ∨ s.holder = some t
  depth : 0 ≤ s.consoleLockDepth
  inside : (s.pc t).Inside (s.holder = some t) s.consoleLockDepth
  outside : ∀ u ≠ t, (s.pc u).Outside

variable [DecidableEq τ] {s s' : State τ} {t : τ} {p : Pc} {call : Call}

@[simp] theorem pc_go (u : τ) : (s.go t p).pc u = if u = t then p else s.pc u := update_apply ..

theorem outside_go (h : ∀ u ≠ t, (s.pc u).Outside) : ∀ u ≠ t, ((s.go t p).pc u).Outside := by
  intro u hu
  simpa [hu] using h u hu

/-- **A step without the unit**: the thread stays outside, or takes the unit. -/
theorem next_outside (hp : p.Outside) (hno : s.holder ≠ some t) (hs : s.next t call p = some s') :
    (∃ q, q.Outside ∧ s' = s.go t q) ∨ s.value ≠ 0 ∧ s' = { s.go t (.setHolder 0) with value := s.value - 1 } := by
  cases p with
  | running n =>
    cases (hp : n = 0)
    cases call with
    | acquire => exact .inl ⟨.acquire 0, rfl, (Option.some.inj hs).symm⟩
    | release => cases hs
    | putchar => cases hs
  | acquire n =>
    cases hs
    rw [if_neg hno]
    exact .inl ⟨.lockAcquire n, hp, rfl⟩
  | lockAcquire n =>
    cases hs
    rw [if_neg hno]
    exact .inl ⟨.down n, hp, rfl⟩
  | down n =>
    cases (hp : n = 0)
    simp only [State.next, Option.ite_none_left_eq_some, Option.some.injEq] at hs
    exact .inr ⟨hs.1, hs.2.symm⟩
  | _ => cases hp

theorem Free.next (h : Free s) (hs : s.next t call (s.pc t) = some s') : Free s' ∨ Owned s' t := by
  have hno : s.holder ≠ some t := by simp [h.holder]
  obtain ⟨q, hq, rfl⟩ | ⟨_, rfl⟩ := next_outside (h.outside t) hno hs
  · refine .inl ⟨h.passed, h.value, h.holder, h.depth, fun u => ?_⟩
    rw [pc_go]
    split_ifs with hu
    · exact hq
    · exact h.outside u
  · refine .inr ⟨h.passed, congrArg Nat.pred h.value, .inl h.holder, h.depth.ge, ?_, outside_go fun u _ => h.outside u⟩
    rw [pc_go, if_pos rfl]
    exact ⟨hno, h.depth, rfl⟩

namespace Owned

section
variable (h : Owned s t)
include h

theorem next_other {u : τ} (hu : u ≠ t) (hs : s.next u call (s.pc u) = some s') : Owned s' t := by
  have hno : s.holder ≠ some u := by
    obtain hn | ht := h.holder
    · simp [hn]
    · simpa [ht] using hu.symm
  obtain ⟨q, hq, rfl⟩ | ⟨hv, _⟩ := next_outside (h.outside u hu) hno hs
  · refine ⟨h.passed, h.value, h.holder, h.depth, ?_, fun v hv => ?_⟩
    · rw [pc_go, if_neg hu.symm]
      exact h.inside
    · rw [pc_go]
      split_ifs with e
      · exact hq
      · exact h.outside v hv
  · exact absurd h.value hv

theorem go {depth : ℤ} {holder : Option τ} (hd : 0 ≤ depth) (hh : holder = none ∨ holder = some t)
    (hp : p.Inside (holder = some t) depth) :
    Owned { s.go t p with consoleLockDepth := depth, holder := holder } t := by
  refine ⟨h.passed, h.value, hh, hd, ?_, outside_go h.outside⟩
  rwa [pc_go, if_pos rfl]

theorem stay (hp : p.Inside (s.holder = some t) s.consoleLockDepth) : Owned (s.go t p) t := h.go h.depth h.holder hp

/-- **A step with the unit**: the thread stays inside, or gives the unit back. -/
theorem next (hs : s.next t call (s.pc t) = some s') : Free s' ∨ Owned s' t := by
  have hp := h.inside
  have hd := h.depth
  generalize s.pc t = p at hp hs
  cases p with
  | running n =>
    cases call with
    | acquire =>
      cases hs
      exact .inr (h.stay hp)
    | release =>
      simp only [State.next, Option.ite_none_left_eq_some, Option.some.injEq] at hs
      exact .inr (hs.2 ▸ h.stay hp)
    | putchar =>
      simp only [State.next, hp.1, if_true, Option.ite_none_left_eq_some, Option.some.injEq] at hs
      exact .inr (hs.2 ▸ h)
  | acquire n =>
    cases hs
    rw [if_pos hp.1]
    exact .inr (h.stay hp)
  | increment n =>
    cases hs
    exact .inr (h.stay ⟨hp.1, hp.2, rfl⟩)
  | incremented n v =>
    cases hs
    obtain ⟨hh, hn, rfl⟩ := hp
    exact .inr (h.go (by omega) h.holder ⟨hh, by omega⟩)
  | setHolder n =>
    cases hs
    obtain ⟨_, hz, rfl⟩ := hp
    exact .inr (h.go hd (.inr rfl) ⟨rfl, congrArg (· + 1) hz⟩)
  | release n =>
    cases hs
    obtain ⟨hh, hn⟩ := hp
    split_ifs with hpos
    · exact .inr (h.stay ⟨hh, hn, hpos⟩)
    · exact .inr (h.stay ⟨hh, by omega, by omega⟩)
  | decrement n =>
    cases hs
    exact .inr (h.stay ⟨hp.1, hp.2.1, hp.2.2, rfl⟩)
  | decremented n v =>
    cases hs
    obtain ⟨hh, hn, hpos, rfl⟩ := hp
    exact .inr (h.go (by omega) h.holder ⟨hh, by omega⟩)
  | lockRelease n =>
    cases hs
    rw [if_pos hp.1]
    exact .inr (h.stay hp)
  | clearHolder n =>
    cases hs
    exact .inr (h.go hd (.inl rfl) ⟨nofun, hp.2⟩)
  | up n =>
    cases hs
    obtain ⟨hno, hz, rfl⟩ := hp
    refine .inl ⟨h.passed, congrArg Nat.succ h.value, h.holder.resolve_right hno, hz, fun u => ?_⟩
    rw [pc_go]
    split_ifs with hu
    · exact rfl
    · exact h.outside u hu
  | _ => cases hp

end

end Owned

/-- Nobody has the unit, or one thread. -/
def Sole (s : State τ) : Prop := Free s ∨ ∃ t, Owned s t

theorem Sole.next (h : Sole s) (hs : s.next t call (s.pc t) = some s') : Sole s' := by
  obtain hfree | ⟨u, howned⟩ := h
  · exact (hfree.next hs).imp_right fun h => ⟨t, h⟩
  · by_cases hu : t = u
    · subst hu
      exact (howned.next hs).imp_right fun h => ⟨t, h⟩
    · exact .inr ⟨u, howned.next_other hu hs⟩

omit [DecidableEq τ] in
theorem Sole.withOpened (h : Sole s) (opened : τ → ℕ) : Sole { s with opened } := by
  obtain h | ⟨t, h⟩ := h
  · exact .inl ⟨h.passed, h.value, h.holder, h.depth, h.outside⟩
  · exact .inr ⟨t, h.passed, h.value, h.holder, h.depth, h.inside, h.outside⟩

theorem sole_of_reaches (h : Reaches State.step anyStep .init s) : Sole s := by
  refine h.invariant (P := Sole) (.inl ⟨rfl, rfl, rfl, rfl, fun _ => rfl⟩) fun s l s' hs _ hstep => ?_
  obtain ⟨u, hu, rfl⟩ := Option.map_eq_some_iff.1 hstep
  exact (hs.next hu).withOpened _

/-- **A call changes what is left by one**, and what follows in it by nothing. -/
theorem next_left (ht : s.pc t = p) (hs : s.next t call p = some s') (hn : ∀ u, s.opened u = (s.pc u).left) (u : τ) :
    s.counted t call p u = (s'.pc u).left := by
  have hgo : ∀ {q : Pc} {opened : τ → ℕ}, opened t = q.left → (∀ u ≠ t, opened u = s.opened u) →
      opened u = ((s.go t q).pc u).left := by
    intro q opened hq hopened
    rw [pc_go]
    split_ifs with hu
    · rw [hu, hq]
    · rw [hopened u hu, hn]
  have hsame : ∀ {q : Pc}, q.left = p.left → s.opened u = ((s.go t q).pc u).left := fun hq =>
    hgo ((hn t).trans (by rw [ht, hq])) fun _ _ => rfl
  cases p with
  | running n =>
    have ht : s.opened t = n := (hn t).trans (by rw [ht]; rfl)
    cases call with
    | acquire =>
      cases hs
      exact hgo (by rw [State.counted, update_self, ht]; rfl) fun u hu => update_of_ne hu ..
    | release =>
      simp only [State.next, Option.ite_none_left_eq_some, Option.some.injEq] at hs
      rw [← hs.2]
      exact hgo (by rw [State.counted, update_self, ht]; rfl) fun u hu => update_of_ne hu ..
    | putchar =>
      simp only [State.next, Option.ite_none_left_eq_some, Option.some.injEq] at hs
      rw [← hs.2]
      split_ifs <;> exact hn u
  | down n =>
    simp only [State.next, Option.ite_none_left_eq_some, Option.some.injEq] at hs
    rw [← hs.2]
    cases call <;> exact hsame rfl
  | acquire n | release n =>
    cases hs
    split_ifs <;> cases call <;> exact hsame rfl
  | lockAcquire n | lockRelease n =>
    cases hs
    split_ifs <;> cases call <;> first | exact hn u | exact hsame rfl
  | _ =>
    cases hs
    cases call <;> exact hsame rfl

theorem opened_of_reaches (h : Reaches State.step anyStep .init s) : ∀ t, s.opened t = (s.pc t).left := by
  refine h.invariant (P := fun s => ∀ t, s.opened t = (s.pc t).left) (fun _ => rfl) fun s l s' hs _ hstep => ?_
  obtain ⟨u, hu, rfl⟩ := Option.map_eq_some_iff.1 hstep
  exact fun v => next_left rfl hu hs v

theorem Pc.Outside.nested (h : p.Outside) : p.nested = 0 ∧ ∀ n, p ≠ .lockRelease n ∧ p ≠ .decrement n := by
  cases p <;> first | exact ⟨h, fun _ => ⟨nofun, nofun⟩⟩ | cases h

theorem Pc.Inside.nested {held : Prop} {depth : ℤ} (h : p.Inside held depth) :
    (held → depth + 1 = p.nested) ∧ (¬held → depth = 0) ∧
    ∀ n, (p = .lockRelease n → n = 1) ∧ (p = .decrement n → 1 < n) := by
  cases p <;> simp [Pc.Inside, Pc.nested] at * <;> grind

/-- **The lock of the console.**  One thread at most has acquired it; the depth counts its acquisitions beyond the
    first, which are those that were called and not released; `release_console` calls `lock_release` exactly if it is
    the outermost release; no assertion fails. -/
theorem console_lock (h : Reaches State.step anyStep .init s) :
    s.failed = false ∧
    (∀ t u, 0 < (s.pc t).nested → 0 < (s.pc u).nested → t = u) ∧
    (∀ t, s.holder = some t → s.consoleLockDepth + 1 = (s.pc t).nested) ∧
    (s.holder = none → s.consoleLockDepth = 0) ∧
    (∀ t, s.opened t = (s.pc t).left) ∧
    (∀ t n call, s.pc t = .release n →
      s.step (t, call) = some (s.go t (if s.opened t = 0 then .lockRelease n else .decrement n))) ∧
    ∀ t n, (s.pc t = .lockRelease n → n = 1) ∧ (s.pc t = .decrement n → 1 < n) := by
  have hopened := opened_of_reaches h
  obtain hfree | ⟨t, ht⟩ := sole_of_reaches h
  · have hout := fun u => (hfree.outside u).nested
    refine ⟨hfree.passed, fun u _ hu => absurd (hout u).1 hu.ne', fun u hu => ?_, fun _ => hfree.depth, hopened,
      fun u n call hu => ?_, fun u n => ?_⟩
    · cases hfree.holder.symm.trans hu
    · have := hfree.outside u
      rw [hu] at this
      cases this
    · exact ⟨fun e => absurd e ((hout u).2 n).1, fun e => absurd e ((hout u).2 n).2⟩
  · have hout := fun u hu => (ht.outside u hu).nested
    obtain ⟨hheld, hfree, hcalls⟩ := ht.inside.nested
    have hin : ∀ u, 0 < (s.pc u).nested → u = t := fun u hu => by_contra fun e => absurd (hout u e).1 hu.ne'
    refine ⟨ht.passed, fun u v hu hv => (hin u hu).trans (hin v hv).symm, fun u hu => ?_, fun hn => ?_, hopened,
      fun u n call hu => ?_, fun u n => ?_⟩
    · obtain hn | hs := ht.holder
      · cases hn.symm.trans hu
      · cases hs.symm.trans hu
        exact hheld hs
    · exact hfree (by simp [hn])
    · obtain rfl : u = t := by_contra fun e => by
        have := ht.outside u e
        rw [hu] at this
        cases this
      -- the depth is positive exactly at an inner release
      have hdepth : s.consoleLockDepth + 1 = n := by
        have := ht.inside
        rw [hu] at this
        exact this.2
      have hleft : s.opened u = n - 1 := (hopened u).trans (by rw [hu]; rfl)
      have hpos := ht.depth
      have hiff : s.consoleLockDepth > 0 ↔ ¬s.opened u = 0 := by omega
      unfold State.step
      dsimp only
      rw [hu, State.next, if_congr hiff rfl rfl, ite_not]
      cases call <;> rfl
    · by_cases e : u = t
      · exact e ▸ hcalls n
      · exact ⟨fun e' => absurd e' ((hout u e).2 n).1, fun e' => absurd e' ((hout u e).2 n).2⟩

/-- The thread `true` acquires the lock twice while `false` waits for it; the first of its releases is an inner one, the
    second calls `lock_release`. -/
theorem console_lock_twice : ∃ s u : State Bool, Reaches State.step anyStep .init s ∧ Reaches State.step anyStep s u ∧
    s.consoleLockDepth = 1 ∧ s.step (true, .putchar) = some (s.go true (.decrement 2)) ∧
    u.consoleLockDepth = 0 ∧ u.step (true, .putchar) = some (u.go true (.lockRelease 1)) := by
  obtain ⟨s, hs, hp⟩ := reaches_of_run State.step anyStep (.init : State Bool)
    (([true, true, true, true, true, false, false, false, true, true, true, true].map fun t => (t, .acquire)) ++
      [(true, .release)])
    (fun s => s.consoleLockDepth = 1 ∧ s.pc true = .release 2 ∧ s.opened true = 1 ∧
      (runList State.step anyStep s (List.replicate 4 (true, .release))).map (fun u => decide (u.consoleLockDepth = 0 ∧
        u.pc true = .release 1 ∧ u.opened true = 0)) = some true) (by decide)
  simp only [decide_eq_true_eq] at hp
  obtain ⟨hdepth, hpc, hopened, hrest⟩ := hp
  obtain ⟨u, hu, hp⟩ := reaches_of_run State.step anyStep s _ _ hrest
  simp only [decide_eq_true_eq] at hp
  obtain ⟨hdepth', hpc', hopened'⟩ := hp
  have hinner := (console_lock hs).2.2.2.2.2.1 true 2 .putchar hpc
  have houter := (console_lock (hs.trans hu)).2.2.2.2.2.1 true 1 .putchar hpc'
  rw [hopened] at hinner
  rw [hopened'] at houter
  exact ⟨s, u, hs, hu, hdepth, hinner, hdepth', houter⟩

end Pintos.Console
