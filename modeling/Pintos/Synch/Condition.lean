/-
  The condition variables of a monitor.

  A thread that waits is pending while it is on a list or was taken from one and not released yet.
  Its own semaphore has no unit while it is pending and one afterwards, whether it had come to
  `sema_down` when it was released or not.
-/
import Pintos.Synch.Lock

namespace Pintos.Synch

open Lib Function List

universe u v

variable {τ : Type u} {κ : Type v}

variable {s s' : Monitor τ κ} {t v : τ} {c : κ} {p q : Pc τ κ}

/-- Blocked on its own semaphore. -/
def Pc.condBlocked : Pc τ κ → Bool
  | .waitBlocked _ => true
  | _ => false

/-- The thread that was taken from a list and is not released yet. -/
def Pc.popped : Pc τ κ → Option (κ × τ)
  | .signal c v | .broadcastSignal c v => some (c, v)
  | _ => none

/-- A thread that is to be released. -/
def Pending (waiters : κ → List τ) (pc : τ → Pc τ κ) (v : τ) : Prop :=
  (∃ c, v ∈ waiters c) ∨ ∃ u c, (pc u).popped = some (c, v)

/-- Whom the call that a thread is in has still to release. -/
def Pc.todo (waiters : κ → List τ) : Pc τ κ → List τ
  | .signal _ v => [v]
  | .broadcast c => waiters c
  | .broadcastSignal c v => v :: waiters c
  | _ => []

/-- All calls but the last have released those that were due, and the last one has them to do. -/
def WakesOk (todo : List τ) : List (Wake τ κ) → Prop
  | [] => todo = []
  | w :: l => w.due = w.released ++ todo ∧ ∀ w' ∈ l, w'.ok

theorem WakesOk.tail {l : List τ} : ∀ {wakes : List (Wake τ κ)}, WakesOk l wakes → ∀ w ∈ wakes.tail, w.ok
  | [], _, _, hw => nomatch hw
  | _ :: _, h, _, hw => h.2 _ hw

theorem WakesOk.all : ∀ {wakes : List (Wake τ κ)}, WakesOk [] wakes → ∀ w ∈ wakes, w.ok
  | [], _, _, hw => nomatch hw
  | _ :: _, h, _, hw => (mem_cons.1 hw).elim (fun e => e ▸ (h.1.trans (append_nil _)).symm) (h.2 _)

theorem Pc.popped_of_waiting (h : p.waiting = some c) : p.popped = none := by
  cases p <;> first | rfl | cases h

theorem Pc.todo_of_waiting (h : p.waiting = some c) (l : κ → List τ) : p.todo l = [] := by
  cases p <;> first | rfl | cases h

theorem Pc.of_not_owns (h : p.lockRole.owns = false) : p.popped = none ∧ ∀ l, p.todo l = [] := by
  cases p <;> first | exact ⟨rfl, fun _ => rfl⟩ | cases h

/-- A thread that waits and is to be released has a semaphore with value zero, else one; it was
    released once less than it has waited. -/
structure Fits (v : τ) (pending : Prop) (p : Pc τ κ) (own : Semaphore τ) (waits releases : ℕ) : Prop where
  count_pending : pending → waits = releases + 1
  count_free : ¬pending → waits = releases
  own_pending : p.waiting ≠ none → pending → own.value = 0
  own_free : p.waiting ≠ none → ¬pending → own.value = 1 ∧ p.condBlocked = false
  own_waiters : p.waiting ≠ none → own.waiters = if p.condBlocked then [v] else []

theorem Fits.of_not_waiting {pending : Prop} {o o' : Semaphore τ} {m n : ℕ} (h : Fits v pending p o m n) (hq : q.waiting = none) :
    Fits v pending q o' m n :=
  ⟨h.count_pending, h.count_free, fun hn => absurd hq hn, fun hn => absurd hq hn, fun hn => absurd hq hn⟩

structure CondOk (waiters : κ → List τ) (own : τ → Semaphore τ) (pc : τ → Pc τ κ) (time : ℕ)
    (since waits releases : τ → ℕ) : Prop where
  nodup : ∀ c, (waiters c).Nodup
  mem : ∀ {c v}, v ∈ waiters c → (pc v).waiting = some c
  order : ∀ c, (waiters c).Pairwise (since · < since ·)
  since_lt : ∀ {c v}, v ∈ waiters c → since v < time
  popped : ∀ {u c v}, (pc u).popped = some (c, v) → (pc v).waiting = some c ∧ v ∉ waiters c
  fits : ∀ v, Fits v (Pending waiters pc v) (pc v) (own v) (waits v) (releases v)

abbrev CondInv (s : Monitor τ κ) : Prop :=
  CondOk s.waiters s.own s.pc s.time s.since s.waits s.releases

abbrev Monitor.Pending (s : Monitor τ κ) : τ → Prop := Synch.Pending s.waiters s.pc

theorem condInv_init : CondInv (.init : Monitor τ κ) := by
  have hp : ∀ v, ¬(Monitor.init : Monitor τ κ).Pending v := by
    rintro v (⟨c, h⟩ | ⟨u, c, h⟩)
    · cases h
    · cases h
  exact ⟨fun _ => nodup_nil, nofun, fun _ => List.Pairwise.nil, nofun, nofun,
    fun v => ⟨fun h => absurd h (hp v), fun _ => rfl, fun h => absurd rfl h, fun h => absurd rfl h, fun h => absurd rfl h⟩⟩

namespace CondOk

theorem pending_waiting (h : CondInv s) (hv : s.Pending v) : ∃ c, (s.pc v).waiting = some c := by
  obtain ⟨c, hv⟩ | ⟨u, c, hu⟩ := hv
  · exact ⟨c, h.mem hv⟩
  · exact ⟨c, (h.popped hu).1⟩

variable [DecidableEq τ]

/-- A thread and its semaphore change, but not what it does to others. -/
theorem setOwn (h : CondInv s) (hpop : p.popped = (s.pc t).popped) (hw : p.waiting = (s.pc t).waiting ∨ ¬s.Pending t)
    {o : Semaphore τ} (hfits : Fits t (s.Pending t) p o (s.waits t) (s.releases t)) :
    CondInv ((s.setOwn t o).setPc t p) := by
  have hpops : ∀ u, (update s.pc t p u).popped = (s.pc u).popped := role_setPc Pc.popped hpop
  have hpending : ∀ v, Synch.Pending s.waiters (update s.pc t p) v ↔ s.Pending v := fun v => by
    simp only [Synch.Pending, hpops]
  have hwaiting : ∀ {v c}, s.Pending v → (s.pc v).waiting = some c → (update s.pc t p v).waiting = some c := by
    intro v c hv hc
    rw [update_apply]
    split_ifs with e
    · subst e
      exact (hw.resolve_right fun hno => hno hv).trans hc
    · exact hc
  refine ⟨h.nodup, fun hv => hwaiting (.inl ⟨_, hv⟩) (h.mem hv), h.order, h.since_lt, fun {u c v} hu => ?_, fun v => ?_⟩
  · have hu' := (hpops u).symm.trans hu
    obtain ⟨hc, hno⟩ := h.popped hu'
    exact ⟨hwaiting (.inr ⟨u, c, hu'⟩) hc, hno⟩
  · change Fits v (Synch.Pending s.waiters (update s.pc t p) v) (update s.pc t p v) (update s.own t o v) _ _
    rw [hpending]
    by_cases e : v = t
    · subst e
      rwa [update_self, update_self]
    · rw [update_of_ne e, update_of_ne e]
      exact h.fits v

theorem setPc (h : CondInv s) (h1 : p.waiting = (s.pc t).waiting) (h2 : p.condBlocked = (s.pc t).condBlocked)
    (h3 : p.popped = (s.pc t).popped) : CondInv (s.setPc t p) := by
  have hfits := h.fits t
  have hset := h.setOwn (o := s.own t) h3 (.inl h1) ⟨hfits.count_pending, hfits.count_free, h1 ▸ hfits.own_pending,
    h1 ▸ h2 ▸ hfits.own_free, h1 ▸ h2 ▸ hfits.own_waiters⟩
  rwa [Monitor.setOwn, update_eq_self] at hset

theorem push [DecidableEq κ] (h : CondInv s) (ht : s.pc t = .inside) (c : κ) :
    CondInv ((s.push t c).setPc t (.waitPushed c)) := by
  have hpend : ¬s.Pending t := fun hp => by
    obtain ⟨c', hc'⟩ := h.pending_waiting hp
    rw [ht] at hc'
    cases hc'
  have hne : ∀ {c' v}, v ∈ s.waiters c' → v ≠ t := by
    rintro c' v hv rfl
    exact hpend (.inl ⟨c', hv⟩)
  have hmem : ∀ {c' v}, v ∈ update s.waiters c (s.waiters c ++ [t]) c' ↔ v ∈ s.waiters c' ∨ c' = c ∧ v = t := by
    intro c' v
    by_cases hc : c' = c
    · subst hc
      simp
    · simp [hc]
  have hpop : ∀ u, (update s.pc t (.waitPushed c) u).popped = (s.pc u).popped := role_setPc Pc.popped (by rw [ht]; rfl)
  have hpending : ∀ v, Synch.Pending (update s.waiters c (s.waiters c ++ [t])) (update s.pc t (.waitPushed c)) v ↔
      s.Pending v ∨ v = t := by
    intro v
    simp only [Synch.Pending, hmem, hpop, exists_or, exists_eq_left]
    exact or_right_comm
  refine ⟨fun c' => ?_, fun {c' v} hv => ?_, fun c' => ?_, fun {c' v} hv => ?_, fun {u c' v} hu => ?_, fun v => ?_⟩
  · change (update s.waiters c (s.waiters c ++ [t]) c').Nodup
    by_cases hc : c' = c
    · subst hc
      rw [update_self, nodup_append_comm]
      exact nodup_cons.2 ⟨fun hmt => hne hmt rfl, h.nodup c'⟩
    · rw [update_of_ne hc]
      exact h.nodup c'
  · change (update s.pc t (.waitPushed c) v).waiting = some c'
    obtain hv | ⟨rfl, rfl⟩ := hmem.1 hv
    · rw [update_of_ne (hne hv)]
      exact h.mem hv
    · rw [update_self]
      rfl
  · have hold : (s.waiters c').Pairwise (update s.since t s.time · < update s.since t s.time ·) :=
      (h.order c').imp_of_mem fun ha hb hab => by
        rwa [update_of_ne (hne ha), update_of_ne (hne hb)]
    change (update s.waiters c (s.waiters c ++ [t]) c').Pairwise
      (update s.since t s.time · < update s.since t s.time ·)
    by_cases hc : c' = c
    · subst hc
      rw [update_self, pairwise_append]
      refine ⟨hold, pairwise_singleton .., fun a ha b hb => ?_⟩
      rw [mem_singleton.1 hb, update_self, update_of_ne (hne ha)]
      exact h.since_lt ha
    · rwa [update_of_ne hc]
  · change update s.since t s.time v < s.time + 1
    obtain hv | ⟨rfl, rfl⟩ := hmem.1 hv
    · rw [update_of_ne (hne hv)]
      exact Nat.lt_succ_of_lt (h.since_lt hv)
    · rw [update_self]
      exact Nat.lt_succ_self _
  · have hu' := (hpop u).symm.trans hu
    obtain ⟨hwv, hnv⟩ := h.popped hu'
    have hvt : v ≠ t := by
      rintro rfl
      exact hpend (.inr ⟨u, c', hu'⟩)
    refine ⟨?_, fun hv => (hmem.1 hv).elim hnv fun e => hvt e.2⟩
    change (update s.pc t (.waitPushed c) v).waiting = some c'
    rwa [update_of_ne hvt]
  · change Fits v (Synch.Pending (update s.waiters c (s.waiters c ++ [t])) (update s.pc t (.waitPushed c)) v)
      (update s.pc t (.waitPushed c) v) (update s.own t (.init 0) v) (update s.waits t (s.waits t + 1) v) _
    rw [hpending]
    by_cases hvt : v = t
    · subst hvt
      simp only [update_self, or_true]
      exact ⟨fun _ => by rw [(h.fits v).count_free hpend]; rfl, fun hno => absurd trivial hno, fun _ _ => rfl,
        fun _ hno => absurd trivial hno, fun _ => rfl⟩
    · rw [update_of_ne hvt, update_of_ne hvt, update_of_ne hvt, or_iff_left hvt]
      exact h.fits v

theorem pop [DecidableEq κ] {l : List τ} (h : CondInv s) (hl : s.waiters c = v :: l) (ht : (s.pc t).waiting = none)
    (htp : (s.pc t).popped = none) (hpw : p.waiting = none) (hpp : p.popped = some (c, v)) :
    CondInv ((s.setWaiters c l).setPc t p) := by
  have hnodup := h.nodup c
  rw [hl, nodup_cons] at hnodup
  have hsub : ∀ c', (update s.waiters c l c').Sublist (s.waiters c') := by
    intro c'
    by_cases hc : c' = c
    · subst hc
      rw [update_self, hl]
      exact sublist_cons_self v l
    · rw [update_of_ne hc]
  have hmem : ∀ {c' v'}, v' ∈ s.waiters c' → v' ∈ update s.waiters c l c' ∨ v' = v := by
    intro c' v' hv'
    by_cases hc : c' = c
    · subst hc
      rw [update_self]
      rw [hl] at hv'
      exact (mem_cons.1 hv').symm
    · rw [update_of_ne hc]
      exact .inl hv'
  have hpop : ∀ u c' v', (update s.pc t p u).popped = some (c', v') ↔ (s.pc u).popped = some (c', v') ∨ u = t ∧ c' = c ∧ v' = v := by
    intro u c' v'
    rw [update_apply]
    split_ifs with e
    · simp [e, htp, hpp, eq_comm]
    · simp [e]
  have hwaiting : ∀ u, (update s.pc t p u).waiting = (s.pc u).waiting := role_setPc Pc.waiting (hpw.trans ht.symm)
  have hpending : ∀ v', Synch.Pending (update s.waiters c l) (update s.pc t p) v' ↔ s.Pending v' := by
    refine fun v' => ⟨?_, ?_⟩
    · rintro (⟨c', hv'⟩ | ⟨u, c', hu⟩)
      · exact .inl ⟨c', (hsub c').subset hv'⟩
      · obtain hu | ⟨-, rfl, rfl⟩ := (hpop u c' v').1 hu
        · exact .inr ⟨u, c', hu⟩
        · exact .inl ⟨c', hl ▸ mem_cons_self⟩
    · rintro (⟨c', hv'⟩ | ⟨u, c', hu⟩)
      · obtain hv' | rfl := hmem hv'
        · exact .inl ⟨c', hv'⟩
        · exact .inr ⟨t, c, (hpop ..).2 (.inr ⟨rfl, rfl, rfl⟩)⟩
      · exact .inr ⟨u, c', (hpop ..).2 (.inl hu)⟩
  refine ⟨fun c' => (h.nodup c').sublist (hsub c'), fun {c' v'} hv => (hwaiting v').trans (h.mem ((hsub c').subset hv)),
    fun c' => (h.order c').sublist (hsub c'), fun {c' v'} hv => h.since_lt ((hsub c').subset hv), fun {u c' v'} hu => ?_,
    fun v' => ?_⟩
  · change (update s.pc t p v').waiting = some c' ∧ v' ∉ update s.waiters c l c'
    rw [hwaiting]
    obtain hu | ⟨-, rfl, rfl⟩ := (hpop u c' v').1 hu
    · exact ⟨(h.popped hu).1, fun hv => (h.popped hu).2 ((hsub c').subset hv)⟩
    · rw [update_self]
      exact ⟨h.mem (hl ▸ mem_cons_self), hnodup.1⟩
  · change Fits v' (Synch.Pending (update s.waiters c l) (update s.pc t p) v') (update s.pc t p v') _ _ _
    rw [hpending, update_apply]
    split_ifs
    · exact (h.fits v').of_not_waiting hpw
    · exact h.fits v'

theorem upOwn_eq (h : CondInv s) (hv : (s.pc v).waiting = some c) (hpend : s.Pending v) :
    s.upOwn t v =
      ((s.setOwn v ⟨1, []⟩).countRelease t v).setPc v (if (s.pc v).condBlocked then .waitDown c else s.pc v) := by
  have hne : (s.pc v).waiting ≠ none := by simp [hv]
  have hzero := (h.fits v).own_pending hne hpend
  have hws := (h.fits v).own_waiters hne
  unfold Monitor.upOwn Semaphore.up
  cases hb : (s.pc v).condBlocked with
  | true =>
    have hpc : s.pc v = .waitBlocked c := by
      cases hpc : s.pc v with
      | waitBlocked c' =>
        rw [hpc] at hv
        exact congrArg _ (Option.some.inj hv)
      | _ => rw [hpc] at hb; cases hb
    rw [hb, if_pos rfl] at hws
    rw [hws, hzero, if_pos rfl]
    exact unblock_waitBlocked hpc
  | false =>
    rw [hb, if_neg Bool.false_ne_true] at hws
    rw [hws, hzero, if_neg Bool.false_ne_true]
    unfold Monitor.setPc
    rw [show s.pc v = ((s.setOwn v ⟨1, []⟩).countRelease t v).pc v from rfl, update_eq_self]
    rfl

theorem upOwn (h : CondInv s) (ht : (s.pc t).popped = some (c, v)) (hu : ∀ u ≠ t, (s.pc u).popped = none)
    (hpw : p.waiting = none) (hpp : p.popped = none) : CondInv ((s.upOwn t v).setPc t p) := by
  obtain ⟨hwv, hnv⟩ := h.popped ht
  have htw : (s.pc t).waiting = none := by
    cases hw : (s.pc t).waiting with
    | none => rfl
    | some c' => exact absurd (ht.symm.trans (Pc.popped_of_waiting hw)) nofun
  have hpend : s.Pending v := .inr ⟨t, c, ht⟩
  rw [h.upOwn_eq hwv hpend]
  generalize hq : (if (s.pc v).condBlocked then Pc.waitDown c else s.pc v) = q
  have hqw : q.waiting = some c := by
    rw [← hq]
    split_ifs
    · rfl
    · exact hwv
  have hqb : q.condBlocked = false := by
    rw [← hq]
    split_ifs with hb
    · rfl
    · exact Bool.eq_false_iff.2 hb
  have hvt : v ≠ t := by
    rintro rfl
    exact absurd (htw.symm.trans hwv) nofun
  have hpc : ∀ u, update (update s.pc v q) t p u = if u = t then p else if u = v then q else s.pc u := fun u => by
    rw [update_apply, update_apply]
  have h1 : ∀ u, (update (update s.pc v q) t p u).waiting = (s.pc u).waiting := by
    intro u
    rw [hpc]
    split_ifs with e e'
    · rw [e, hpw, htw]
    · rw [e', hqw, hwv]
    · rfl
  have h3 : ∀ u, (update (update s.pc v q) t p u).popped = none := by
    intro u
    rw [hpc]
    split_ifs with e e'
    · exact hpp
    · exact Pc.popped_of_waiting hqw
    · exact hu u e
  have hpending : ∀ v', Synch.Pending s.waiters (update (update s.pc v q) t p) v' ↔ s.Pending v' ∧ v' ≠ v := by
    refine fun v' => ⟨?_, ?_⟩
    · rintro (⟨c', hv'⟩ | ⟨u, c', hu'⟩)
      · refine ⟨.inl ⟨c', hv'⟩, ?_⟩
        rintro rfl
        cases hwv.symm.trans (h.mem hv')
        exact hnv hv'
      · exact absurd ((h3 u).symm.trans hu') nofun
    · rintro ⟨⟨c', hv'⟩ | ⟨u, c', hu'⟩, hne⟩
      · exact .inl ⟨c', hv'⟩
      · by_cases hut : u = t
        · rw [hut, ht] at hu'
          exact absurd (Prod.mk.inj (Option.some.inj hu')).2.symm hne
        · exact absurd ((hu u hut).symm.trans hu') nofun
  refine ⟨h.nodup, fun {c' v'} hv => (h1 v').trans (h.mem hv), h.order, h.since_lt, fun {u c' v'} hu' => ?_, fun v' => ?_⟩
  · exact absurd ((h3 u).symm.trans hu') nofun
  · change Fits v' (Synch.Pending s.waiters (update (update s.pc v q) t p) v') (update (update s.pc v q) t p v')
      (update s.own v ⟨1, []⟩ v') _ (update s.releases v (s.releases v + 1) v')
    rw [hpending, hpc]
    by_cases hne : v' = v
    · subst hne
      rw [if_neg hvt, if_pos rfl, update_self, update_self]
      exact ⟨fun hno => absurd rfl hno.2, fun _ => (h.fits v').count_pending hpend, fun _ hno => absurd rfl hno.2,
        fun _ _ => ⟨rfl, hqb⟩, fun _ => by rw [hqb]; rfl⟩
    · rw [if_neg hne, update_of_ne hne, update_of_ne hne, and_iff_left hne]
      split_ifs
      · exact (h.fits v').of_not_waiting hpw
      · exact h.fits v'

theorem down (h : CondInv s) (ht : s.pc t = .waitDown c) (hv : (s.own t).value ≠ 0) (o : Semaphore τ) :
    CondInv ((s.setOwn t o).setPc t (.acquire (some c))) := by
  have hpend : ¬s.Pending t := fun hp => hv ((h.fits t).own_pending (by rw [ht]; nofun) hp)
  exact h.setOwn (by rw [ht]; rfl) (.inr hpend) ((h.fits t).of_not_waiting rfl)

theorem block (h : CondInv s) (ht : s.pc t = .waitDown c) (hv : (s.own t).value = 0) :
    CondInv ((s.setOwn t ⟨(s.own t).value, (s.own t).waiters ++ [t]⟩).setPc t (.waitBlocked c)) := by
  have hne : (s.pc t).waiting ≠ none := by rw [ht]; nofun
  have hfits := h.fits t
  have hws : (s.own t).waiters = [] := by rw [hfits.own_waiters hne, ht]; rfl
  refine h.setOwn (by rw [ht]; rfl) (.inl (by rw [ht]; rfl)) ?_
  exact ⟨hfits.count_pending, hfits.count_free, fun _ _ => hv,
    fun _ hno => absurd (hv.symm.trans (hfits.own_free hne hno).1) nofun, fun _ => by rw [hws]; rfl⟩

end CondOk

end Pintos.Synch
