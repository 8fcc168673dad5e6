/-
  Every step of the threads that use a monitor keeps the invariants of the lock and of the condition
  variables.
-/
import Pintos.Synch.Condition

namespace Pintos.Synch

open Lib Function List

universe u v

variable {τ : Type u} {κ : Type v}

variable {s s' : Monitor τ κ} {t v : τ} {c : κ} {p q : Pc τ κ}

abbrev WakeInv (s : Monitor τ κ) : Prop := ∀ u, WakesOk ((s.pc u).todo s.waiters) (s.wakes u)

structure MonitorInv (s : Monitor τ κ) : Prop where
  lock : LockInv s
  cond : CondInv s
  wake : WakeInv s
  asserts : s.failed = false

theorem assert_of {q : Prop} [Decidable q] (h : q) : s.assert q = s := by
  unfold Monitor.assert
  rw [decide_eq_false (not_not.2 h), Bool.or_false]

namespace MonitorInv

theorem inside (h : MonitorInv s) (hpc : s.pc t = .outside ∨ s.pc t = .inside) (hh : s.holder = some t) :
    s.pc t = .inside :=
  hpc.resolve_left fun ho => by
    have : (s.pc t).lockRole = .holder := (h.lock.holder_iff t).1 hh
    rw [ho] at this
    cases this

theorem outside (h : MonitorInv s) (hpc : s.pc t = .outside ∨ s.pc t = .inside) (hh : s.holder ≠ some t) :
    s.pc t = .outside :=
  hpc.resolve_right fun hi => hh ((h.lock.holder_iff t).2 (congrArg Pc.lockRole hi))

theorem others (h : MonitorInv s) (ht : (s.pc t).lockRole = .holder) (u : τ) (hu : u ≠ t) :
    (s.pc u).popped = none ∧ ∀ l, (s.pc u).todo l = [] :=
  Pc.of_not_owns (h.lock.owns_unique (congrArg LockRole.owns ht) hu)

/-- The log and what is to be done change for one thread. -/
theorem wakeInv_of (h : WakeInv s) (hwakes : ∀ u ≠ t, s'.wakes u = s.wakes u)
    (htodo : ∀ u ≠ t, (s'.pc u).todo s'.waiters = (s.pc u).todo s.waiters)
    (ht : WakesOk ((s'.pc t).todo s'.waiters) (s'.wakes t)) : WakeInv s' := by
  intro u
  by_cases hu : u = t
  · exact hu ▸ ht
  · rw [hwakes u hu, htodo u hu]
    exact h u

variable [DecidableEq τ]

theorem wakeInv_setPc (h : WakeInv s) (ht : p.todo s.waiters = (s.pc t).todo s.waiters) : WakeInv (s.setPc t p) := by
  intro u
  have := role_setPc (s := s) (t := t) (Pc.todo s.waiters) ht u
  exact this ▸ h u

theorem setPc (h : MonitorInv s) (ht : s.pc t = q) (hr : p.lockRole = q.lockRole) (h1 : p.waiting = q.waiting)
    (h2 : p.condBlocked = q.condBlocked) (h3 : p.popped = q.popped) (h4 : p.todo s.waiters = q.todo s.waiters) :
    MonitorInv (s.setPc t p) := by
  subst ht
  exact ⟨h.lock.setPc hr, h.cond.setPc h1 h2 h3, wakeInv_setPc h.wake h4, h.asserts⟩

/-- Only what the thread is to the lock changes. -/
theorem setLock (h : MonitorInv s) (ht : s.pc t = q) (hlock : LockInv (s'.setPc t p))
    (hs : s' = { s with holder := s'.holder, semaphore := s'.semaphore }) (h1 : p.waiting = q.waiting)
    (h2 : p.condBlocked = q.condBlocked) (h3 : p.popped = q.popped) (h4 : p.todo s.waiters = q.todo s.waiters) :
    MonitorInv (s'.setPc t p) := by
  subst ht
  refine ⟨hlock, ?_, ?_, ?_⟩
  · rw [hs]
    exact h.cond.setPc h1 h2 h3
  · rw [hs]
    exact wakeInv_setPc h.wake h4
  · rw [hs]
    exact h.asserts

theorem upLock (h : MonitorInv s) (ht : s.pc t = q) (hr : q.lockRole = .owner) (hp : p.lockRole = .away)
    (h1 : p.waiting = q.waiting) (h2 : p.condBlocked = q.condBlocked) (h3 : p.popped = q.popped)
    (h4 : p.todo s.waiters = q.todo s.waiters) : MonitorInv (s.upLock.setPc t p) := by
  have hlock := lockInv_upLock h.lock (ht.symm ▸ hr) hp
  obtain ⟨-, heq⟩ | ⟨t', ts, w, -, hpc, heq⟩ := upLock_eq h.lock
  · rw [heq] at hlock ⊢
    exact h.setLock ht hlock rfl h1 h2 h3 h4
  · have hne : t ≠ t' := by
      rintro rfl
      rw [← ht, hpc] at hr
      cases hr
    have hpct : ((s.setSemaphore ⟨(s.semaphore.value + 1) % 2 ^ 32, ts⟩).setPc t' (.acquire w)).pc t = q := by
      rw [pc_setPc, if_neg hne]
      exact ht
    rw [heq] at hlock ⊢
    have hcond : CondInv ((s.setSemaphore ⟨(s.semaphore.value + 1) % 2 ^ 32, ts⟩).setPc t' (.acquire w)) :=
      CondOk.setPc (s := s) h.cond (by rw [hpc]; rfl) (by rw [hpc]; rfl) (by rw [hpc]; rfl)
    have hwake : WakeInv ((s.setSemaphore ⟨(s.semaphore.value + 1) % 2 ^ 32, ts⟩).setPc t' (.acquire w)) :=
      wakeInv_setPc (s := s) h.wake (by rw [hpc]; rfl)
    exact ⟨hlock, hcond.setPc (hpct ▸ h1) (hpct ▸ h2) (hpct ▸ h3), wakeInv_setPc hwake (hpct ▸ h4), h.asserts⟩

theorem upOwn (h : MonitorInv s) (ht : (s.pc t).popped = some (c, v)) (htodo : (s.pc t).todo s.waiters = v :: p.todo s.waiters)
    (hpr : p.lockRole = .holder) (hpw : p.waiting = none) (hpp : p.popped = none) :
    MonitorInv ((s.upOwn t v).setPc t p) := by
  have hth : (s.pc t).lockRole = .holder := by
    cases hpc : s.pc t <;> first | rfl | (rw [hpc] at ht; cases ht)
  have hcond := h.cond.upOwn ht (fun u hu => (h.others hth u hu).1) hpw hpp
  obtain ⟨hwv, -⟩ := h.cond.popped ht
  rw [h.cond.upOwn_eq hwv (.inr ⟨t, c, ht⟩)] at hcond ⊢
  have hvt : v ≠ t := by
    rintro rfl
    exact absurd (ht.symm.trans (Pc.popped_of_waiting hwv)) nofun
  generalize hq : (if (s.pc v).condBlocked then Pc.waitDown c else s.pc v) = q at hcond ⊢
  have hrole : q.lockRole = (s.pc v).lockRole := by
    rw [← hq]
    cases s.pc v <;> rfl
  have hqtodo : q.todo s.waiters = (s.pc v).todo s.waiters := by
    rw [← hq, Pc.todo_of_waiting hwv]
    cases hpc : s.pc v <;> first | rfl | (rw [hpc] at hwv; cases hwv)
  have hlock := LockOk.setPc (s := (s.setOwn v ⟨1, []⟩).countRelease t v) h.lock hrole
  refine ⟨hlock.setPc ?_, hcond, wakeInv_of (t := t) h.wake (fun u hu => update_of_ne hu ..) (fun u hu => ?_) ?_, h.asserts⟩
  · rw [pc_setPc, if_neg hvt.symm]
    exact hpr.trans hth.symm
  · rw [pc_setPc, if_neg hu]
    exact role_setPc (s := s) (Pc.todo s.waiters) hqtodo u
  · -- the thread that is released is the next of those that the call has to release
    rw [pc_setPc, if_pos rfl]
    change WakesOk (p.todo s.waiters) (update s.wakes t ((s.wakes t).modifyHead _) t)
    rw [update_self]
    have hold := h.wake t
    rw [htodo] at hold
    cases hw : s.wakes t with
    | nil =>
      rw [hw] at hold
      cases hold
    | cons w l =>
      rw [hw] at hold
      exact ⟨hold.1.trans (append_cons ..), hold.2⟩

/-- The call of a thread that is in none is the last of its log. -/
theorem wakesOk_log (h : MonitorInv s) (hpc : s.pc t = .outside ∨ s.pc t = .inside) {w : Wake τ κ} {todo : List τ}
    (hw : w.due = w.released ++ todo) : WakesOk todo (update s.wakes t (w :: s.wakes t) t) := by
  have hwake := h.wake t
  rw [update_self]
  refine ⟨hw, WakesOk.all ?_⟩
  obtain e | e := hpc <;> rwa [e] at hwake

/-- A call that finds no waiters. -/
theorem logged (h : MonitorInv s) (hpc : s.pc t = .outside ∨ s.pc t = .inside) {w : Wake τ κ} (hw : w.due = w.released) :
    MonitorInv { s with wakes := update s.wakes t (w :: s.wakes t) } := by
  refine ⟨h.lock, h.cond, wakeInv_of (t := t) h.wake (fun u hu => update_of_ne hu ..) (fun _ _ => rfl) ?_, h.asserts⟩
  have htodo : (s.pc t).todo s.waiters = [] := by
    obtain e | e := hpc <;> rw [e] <;> rfl
  rw [htodo]
  exact h.wakesOk_log hpc (hw.trans (append_nil _).symm)

variable [DecidableEq κ]

theorem pop {l : List τ} (h : MonitorInv s) (hl : s.waiters c = v :: l) (ht : s.pc t = q) (hr : q.lockRole = .holder)
    (htp : q.popped = none) (htw : q.waiting = none) (hpr : p.lockRole = .holder) (hpw : p.waiting = none)
    (hpp : p.popped = some (c, v)) {wakes : τ → List (Wake τ κ)} (hwakes : ∀ u ≠ t, wakes u = s.wakes u)
    (hwt : WakesOk (p.todo (update s.waiters c l)) (wakes t)) :
    MonitorInv (({ s with wakes }.setWaiters c l).setPc t p) := by
  subst ht
  refine ⟨LockOk.setPc (s := { s with wakes }.setWaiters c l) h.lock (hpr.trans hr.symm), h.cond.pop hl htw htp hpw hpp,
    wakeInv_of (t := t) h.wake hwakes (fun u hu => ?_) ?_, h.asserts⟩
  · rw [pc_setPc, if_neg hu]
    have hu := (h.others hr u hu).2
    exact (hu _).trans (hu _).symm
  · rwa [pc_setPc, if_pos rfl]

theorem call (h : MonitorInv s) (hpc : s.pc t = .outside ∨ s.pc t = .inside) {a : Call κ}
    (hstep : (s.log t a).call t a = some s') : MonitorInv s' := by
  cases a with
  | acquire =>
    change s.call t .acquire = some s' at hstep
    simp only [Monitor.call] at hstep
    split_ifs at hstep with hh
    cases hstep
    exact h.setPc (h.outside hpc hh) rfl rfl rfl rfl rfl
  | tryAcquire =>
    change s.call t .tryAcquire = some s' at hstep
    simp only [Monitor.call, Semaphore.tryDown] at hstep
    split_ifs at hstep with hh hv hf
    · cases hstep
      have ht := h.outside hpc hh
      have hlock := h.lock.take (t := t) (by omega) (congrArg Pc.lockRole ht)
      exact h.setLock ht (lockInv_setPc hlock) rfl rfl rfl rfl rfl
    · exact absurd rfl hf
    · contradiction
    · cases hstep
      exact h
  | release =>
    change s.call t .release = some s' at hstep
    simp only [Monitor.call] at hstep
    split_ifs at hstep with hh
    cases hstep
    have ht := h.inside hpc hh
    have hlock := h.lock.hold (t := t) (r := .owner) (congrArg (LockRole.owns ∘ Pc.lockRole) ht) rfl
    exact h.setLock ht (lockInv_setPc hlock) rfl rfl rfl rfl rfl
  | wait c =>
    change s.call t (.wait c) = some s' at hstep
    simp only [Monitor.call] at hstep
    split_ifs at hstep with hh
    cases hstep
    have ht := h.inside hpc hh
    have hr : (s.pc t).lockRole = .holder := congrArg Pc.lockRole ht
    refine ⟨LockOk.setPc (s := s.push t c) h.lock hr.symm, h.cond.push ht c,
      wakeInv_of (t := t) h.wake (fun _ _ => rfl) (fun u hu => ?_) ?_, h.asserts⟩
    · rw [pc_setPc, if_neg hu]
      have hu := (h.others hr u hu).2
      exact (hu _).trans (hu _).symm
    · rw [pc_setPc, if_pos rfl]
      have hwake := h.wake t
      rwa [ht] at hwake
  | signal c =>
    change { s with wakes := update s.wakes t _ }.call t (.signal c) = some s' at hstep
    simp only [Monitor.call] at hstep
    split_ifs at hstep with hh
    have ht := h.inside hpc hh
    split at hstep
    next hl =>
      cases hstep
      exact h.logged hpc (by rw [hl]; rfl)
    next v l hl =>
      cases hstep
      exact h.pop hl ht rfl rfl rfl rfl rfl rfl (fun u hu => update_of_ne hu ..) (h.wakesOk_log hpc (by rw [hl]; rfl))
  | broadcast c =>
    change { s with wakes := update s.wakes t _ }.call t (.broadcast c) = some s' at hstep
    simp only [Monitor.call] at hstep
    split at hstep
    next hl =>
      cases hstep
      exact h.logged hpc (by rw [hl]; rfl)
    next v l hl =>
      split_ifs at hstep with hh
      cases hstep
      refine h.pop hl (h.inside hpc hh) rfl rfl rfl rfl rfl rfl (fun u hu => update_of_ne hu ..) (h.wakesOk_log hpc ?_)
      change s.waiters c = v :: update s.waiters c l c
      rw [update_self, hl]

theorem next (h : MonitorInv s) (hstep : s.next t = some s') : MonitorInv s' := by
  unfold Monitor.next at hstep
  split at hstep
  next => cases hstep
  next => cases hstep
  next => cases hstep
  next => cases hstep
  next w ht =>
    cases hstep
    have hrole : (s.pc t).lockRole = .away := congrArg Pc.lockRole ht
    unfold Semaphore.down
    split_ifs with h0 hf hf
    · cases hf
    · exact h.setLock ht (lockInv_setPc (h.lock.block hrole)) rfl rfl rfl rfl rfl
    · exact h.setLock ht (lockInv_setPc (h.lock.take h0 hrole)) rfl rfl rfl rfl rfl
    · exact absurd rfl hf
  next w ht =>
    cases hstep
    have hlock := h.lock.hold (t := t) (r := .holder) (congrArg (LockRole.owns ∘ Pc.lockRole) ht) rfl
    exact h.setLock ht (lockInv_setPc hlock) rfl rfl rfl rfl rfl
  next ht =>
    cases hstep
    exact h.upLock ht rfl rfl rfl rfl rfl rfl
  next c ht =>
    cases hstep
    have hlock := h.lock.hold (t := t) (r := .owner) (congrArg (LockRole.owns ∘ Pc.lockRole) ht) rfl
    rw [assert_of ((h.lock.holder_iff t).2 (congrArg Pc.lockRole ht))]
    exact h.setLock ht (lockInv_setPc hlock) rfl rfl rfl rfl rfl
  next c ht =>
    cases hstep
    exact h.upLock ht rfl rfl rfl rfl rfl rfl
  next c ht =>
    cases hstep
    have hrole : (s.pc t).lockRole = .away := congrArg Pc.lockRole ht
    have hholder : s.holder ≠ some t := fun hh => absurd (hrole.symm.trans ((h.lock.holder_iff t).1 hh)) nofun
    have hown : ∀ {o p}, p.lockRole = .away → p.todo s.waiters = [] → CondInv ((s.setOwn t o).setPc t p) →
        MonitorInv ((s.setOwn t o).setPc t p) := fun {o p} hp htodo hcond =>
      ⟨LockOk.setPc (s := s.setOwn t o) h.lock (hp.trans hrole.symm), hcond,
        wakeInv_setPc (s := s.setOwn t o) h.wake (htodo.trans (congrArg (Pc.todo s.waiters) ht).symm), h.asserts⟩
    rw [assert_of fun _ => hholder]
    unfold Semaphore.down
    split_ifs with h0 hf hf
    · cases hf
    · exact hown rfl rfl (h.cond.block ht h0)
    · exact hown rfl rfl (h.cond.down ht h0 _)
    · exact absurd rfl hf
  next c v ht =>
    cases hstep
    exact h.upOwn (c := c) (by rw [ht]; rfl) (by rw [ht]; rfl) rfl rfl rfl
  next c v ht =>
    cases hstep
    exact h.upOwn (c := c) (by rw [ht]; rfl) (by rw [ht]; rfl) rfl rfl rfl
  next c ht =>
    split at hstep
    next hl =>
      cases hstep
      exact h.setPc ht rfl rfl rfl rfl hl.symm
    next v l hl =>
      cases hstep
      rw [assert_of ((h.lock.holder_iff t).2 (congrArg Pc.lockRole ht))]
      refine h.pop hl ht rfl rfl rfl rfl rfl rfl (fun _ _ => rfl) ?_
      have hwake := h.wake t
      rw [ht] at hwake
      change WakesOk (v :: update s.waiters c l c) (s.wakes t)
      rwa [update_self, ← hl]

theorem step {l : τ × Option (Call κ)} (h : MonitorInv s) (hstep : s.step l = some s') : MonitorInv s' := by
  obtain ⟨t, _ | a⟩ := l
  · exact h.next hstep
  · simp only [Monitor.step] at hstep
    split at hstep
    next hpc => exact h.call (.inl hpc) hstep
    next hpc => exact h.call (.inr hpc) hstep
    next => cases hstep

omit [DecidableEq τ] [DecidableEq κ]

theorem init : MonitorInv (.init : Monitor τ κ) := ⟨lockInv_init, condInv_init, fun _ => rfl, rfl⟩

theorem ok (h : MonitorInv s) : MonitorOk s where
  exclusive t t' ht ht' := by
    have ht := (h.lock.holder_iff t).2 (Pc.holder_of_within ht)
    exact Option.some.inj (ht.symm.trans ((h.lock.holder_iff t').2 (Pc.holder_of_within ht')))
  holder t ht := (h.lock.holder_iff t).2 (Pc.holder_of_within ht)
  order := h.cond.order
  wakes t := by
    have hwake := h.wake t
    split_ifs with hw
    · exact hwake.tail
    · have htodo : (s.pc t).todo s.waiters = [] := by
        cases hp : s.pc t <;> first | rfl | exact absurd (congrArg Pc.waking hp) hw
      exact (htodo ▸ hwake).all
  released t c ht := by
    have hne : (s.pc t).waiting ≠ none := by simp [ht]
    by_cases hp : s.Pending t
    · exact .inl ((h.cond.fits t).count_pending hp)
    · obtain ⟨hv, hb⟩ := (h.cond.fits t).own_free hne hp
      refine .inr ⟨(h.cond.fits t).count_free hp, fun heq => ?_, hv⟩
      rw [heq] at hb
      cases hb
  returned t ht := (h.cond.fits t).count_free fun hp => by
    obtain ⟨c, hc⟩ := h.cond.pending_waiting hp
    exact absurd (ht.symm.trans hc) nofun
  asserts := h.asserts

end MonitorInv

end Pintos.Synch
