/-
  The lock of a monitor: its semaphore has one unit, and the thread that took it is the holder from
  the store to `lock->holder` in `lock_acquire` to the one in `lock_release`.
-/
import Pintos.Synch.Monitor

namespace Pintos.Synch

open Lib Function List

universe u v

variable {τ : Type u} {κ : Type v}

/-- What a thread is to the lock: it may be blocked on the semaphore, have taken its unit, and be the holder as well. -/
inductive LockRole where
  | away
  | blocked
  | owner
  | holder
  deriving DecidableEq

def LockRole.owns : LockRole → Bool
  | .owner | .holder => true
  | _ => false

def Pc.lockRole : Pc τ κ → LockRole
  | .inside | .waitPushed _ | .signal .. | .broadcast .. | .broadcastSignal .. => .holder
  | .acquired _ | .release | .waitRelease _ => .owner
  | .acquireBlocked _ => .blocked
  | _ => .away

theorem Pc.holder_of_within {p : Pc τ κ} (h : p.within = true) : p.lockRole = .holder := by
  cases p <;> first | rfl | cases h

/-- The unit is there, or one thread has it; `holder` is that thread once it has said so. -/
structure LockOk (holder : Option τ) (semaphore : Semaphore τ) (role : τ → LockRole) : Prop where
  nodup : semaphore.waiters.Nodup
  waiters : ∀ t, t ∈ semaphore.waiters ↔ role t = .blocked
  unit : semaphore.value = 1 ∧ holder = none ∧ (∀ t, (role t).owns = false) ∨
    ∃ t, semaphore.value = 0 ∧ holder = (if role t = .holder then some t else none) ∧ (role t).owns = true ∧
      ∀ u ≠ t, (role u).owns = false

abbrev LockInv (s : Monitor τ κ) : Prop := LockOk s.holder s.semaphore (Pc.lockRole ∘ s.pc)

theorem lockInv_init : LockInv (.init : Monitor τ κ) :=
  ⟨nodup_nil, fun _ => ⟨nofun, nofun⟩, .inl ⟨rfl, rfl, fun _ => rfl⟩⟩

variable {s s' : Monitor τ κ} {t u v : τ} {c : κ} {p q : Pc τ κ}

namespace LockOk

variable {holder : Option τ} {semaphore : Semaphore τ} {role : τ → LockRole} {r : LockRole}
  (h : LockOk holder semaphore role)
include h

theorem owns_unique (ht : (role t).owns = true) (hu : u ≠ t) : (role u).owns = false := by
  obtain ⟨-, -, hno⟩ | ⟨o, -, -, -, hothers⟩ := h.unit
  · exact hno u
  · by_cases hut : u = o
    · exact absurd (ht.symm.trans (hothers t fun e => hu (hut.trans e.symm))) nofun
    · exact hothers u hut

theorem holder_iff (t : τ) : holder = some t ↔ role t = .holder := by
  obtain ⟨-, hn, hno⟩ | ⟨o, -, ho, howns, hothers⟩ := h.unit
  · rw [hn]
    exact ⟨nofun, fun ht => absurd ((hno t).symm.trans (congrArg _ ht)) nofun⟩
  · rw [ho]
    constructor
    · intro ht
      split_ifs at ht with hr
      cases ht
      exact hr
    · intro ht
      have hto : t = o := by_contra fun hne => absurd ((hothers t hne).symm.trans (congrArg _ ht)) nofun
      rw [← hto, if_pos ht]

theorem value_zero (ht : (role t).owns = true) : semaphore.value = 0 := by
  obtain ⟨-, -, hno⟩ | ⟨-, hz, -⟩ := h.unit
  · exact absurd ((hno t).symm.trans ht) nofun
  · exact hz

variable [DecidableEq τ]

theorem waiters_update (ht : role t ≠ .blocked) (hr : r ≠ .blocked) (u : τ) :
    u ∈ semaphore.waiters ↔ update role t r u = .blocked := by
  rw [h.waiters, update_apply]
  split_ifs with e
  · rw [e]
    exact iff_of_false ht hr
  · rfl

theorem take (hv : semaphore.value ≠ 0) (ht : role t = .away) :
    LockOk holder ⟨semaphore.value - 1, semaphore.waiters⟩ (update role t .owner) := by
  refine ⟨h.nodup, h.waiters_update (by simp [ht]) nofun, ?_⟩
  obtain ⟨hone, hn, hno⟩ | ⟨-, hz, -⟩ := h.unit
  · refine .inr ⟨t, by rw [hone], by simp [hn], by simp [LockRole.owns], fun u hu => ?_⟩
    rw [update_of_ne hu]
    exact hno u
  · exact absurd hz hv

/-- The unit is where it was when a thread without it changes. -/
theorem unit_update (ht : (role t).owns = false) (hr : r.owns = false) {l : List τ} (hl : l.Nodup)
    (hw : ∀ u, u ∈ l ↔ update role t r u = .blocked) : LockOk holder ⟨semaphore.value, l⟩ (update role t r) := by
  have hown : ∀ u, (update role t r u).owns = (role u).owns := by
    intro u
    rw [update_apply]
    split_ifs with e
    · rw [e, ht, hr]
    · rfl
  refine ⟨hl, hw, ?_⟩
  obtain ⟨hone, hn, hno⟩ | ⟨o, hz, ho, howns, hothers⟩ := h.unit
  · exact .inl ⟨hone, hn, fun u => (hown u).trans (hno u)⟩
  · have hot : o ≠ t := by
      rintro rfl
      exact absurd (ht.symm.trans howns) nofun
    exact .inr ⟨o, hz, by rwa [update_of_ne hot], (hown o).trans howns, fun u hu => (hown u).trans (hothers u hu)⟩

theorem block (ht : role t = .away) :
    LockOk holder ⟨semaphore.value, semaphore.waiters ++ [t]⟩ (update role t .blocked) := by
  refine h.unit_update (by rw [ht]; rfl) rfl (nodup_append_comm.2 (nodup_cons.2 ⟨fun hm => ?_, h.nodup⟩)) fun u => ?_
  · cases ht.symm.trans ((h.waiters t).1 hm)
  · rw [mem_append, mem_singleton, h.waiters, update_apply]
    split_ifs with e
    · exact iff_of_true (.inr e) rfl
    · exact or_iff_left e

theorem unblock {l : List τ} (hv : semaphore.waiters = v :: l) :
    LockOk holder ⟨semaphore.value, l⟩ (update role v .away) := by
  have hw := h.waiters
  have hnodup := h.nodup
  rw [hv] at hw hnodup
  refine h.unit_update (by rw [(hw v).1 mem_cons_self]; rfl) rfl (nodup_cons.1 hnodup).2 fun u => ?_
  rw [update_apply]
  split_ifs with e
  · rw [e]
    exact iff_of_false (nodup_cons.1 hnodup).1 nofun
  · rw [← hw, mem_cons, or_iff_right e]

/-- The owner stores to `holder`. -/
theorem hold (ht : (role t).owns = true) (hr : r.owns = true) :
    LockOk (if r = .holder then some t else none) semaphore (update role t r) := by
  have hb : ∀ {r : LockRole}, r.owns = true → r ≠ .blocked := by
    rintro _ hr rfl
    cases hr
  refine ⟨h.nodup, h.waiters_update (hb ht) (hb hr), .inr ⟨t, h.value_zero ht, ?_⟩⟩
  rw [update_self]
  refine ⟨rfl, hr, fun u hu => ?_⟩
  rw [update_of_ne hu]
  exact h.owns_unique ht hu

/-- The owner gives the unit back. -/
theorem give (ht : role t = .owner) :
    LockOk holder ⟨(semaphore.value + 1) % 2 ^ 32, semaphore.waiters⟩ (update role t .away) := by
  have howns : (role t).owns = true := by rw [ht]; rfl
  refine ⟨h.nodup, h.waiters_update (by simp [ht]) nofun, .inl ⟨by simp [h.value_zero howns], ?_, fun u => ?_⟩⟩
  · obtain ⟨-, hn, -⟩ | ⟨o, -, ho, howns', -⟩ := h.unit
    · exact hn
    · have hot : o = t := by_contra fun hne => absurd ((h.owns_unique howns hne).symm.trans howns') nofun
      rw [ho, hot, ht]
      rfl
  · rw [update_apply]
    split_ifs with e
    · rfl
    · exact h.owns_unique howns e

end LockOk

section
variable [DecidableEq τ]

theorem pc_setPc (s : Monitor τ κ) (t t' : τ) (p : Pc τ κ) : (s.setPc t p).pc t' = if t' = t then p else s.pc t' :=
  update_apply ..

/-- What a thread is to the lock or to a condition variable may stay the same. -/
theorem role_setPc {β : Type*} (r : Pc τ κ → β) (h : r p = r (s.pc t)) (t' : τ) :
    r ((s.setPc t p).pc t') = r (s.pc t') := by
  rw [pc_setPc]
  split_ifs with e
  · rw [e, h]
  · rfl

theorem unblock_acquireBlocked {w : Option κ} (h : s.pc t = .acquireBlocked w) :
    s.unblock (some t) = s.setPc t (.acquire w) := by
  simp only [Monitor.unblock, h]

theorem unblock_waitBlocked (h : s.pc t = .waitBlocked c) : s.unblock (some t) = s.setPc t (.waitDown c) := by
  simp only [Monitor.unblock, h]

theorem lockInv_setPc (h : LockOk s.holder s.semaphore (update (Pc.lockRole ∘ s.pc) t p.lockRole)) : LockInv (s.setPc t p) := by
  rwa [← comp_update] at h

theorem LockOk.setPc (h : LockInv s) (hr : p.lockRole = (s.pc t).lockRole) : LockInv (s.setPc t p) := by
  refine lockInv_setPc ?_
  rwa [hr, show (s.pc t).lockRole = (Pc.lockRole ∘ s.pc) t from rfl, update_eq_self]

/-- What `sema_up` of the lock does: a waiter may be unblocked. -/
theorem upLock_eq (h : LockInv s) : (s.semaphore.waiters = [] ∧
      s.upLock = s.setSemaphore ⟨(s.semaphore.value + 1) % 2 ^ 32, []⟩) ∨
    ∃ t' ts w, s.semaphore.waiters = t' :: ts ∧ s.pc t' = .acquireBlocked w ∧
      s.upLock = (s.setSemaphore ⟨(s.semaphore.value + 1) % 2 ^ 32, ts⟩).setPc t' (.acquire w) := by
  unfold Monitor.upLock Semaphore.up
  cases hw : s.semaphore.waiters with
  | nil => exact .inl ⟨rfl, rfl⟩
  | cons t' ts =>
    have hb : (s.pc t').lockRole = .blocked := (h.waiters t').1 (by rw [hw]; exact mem_cons_self)
    cases hp : s.pc t' with
    | acquireBlocked w =>
      refine .inr ⟨t', ts, w, rfl, hp, ?_⟩
      exact unblock_acquireBlocked hp
    | _ => rw [hp] at hb; cases hb

theorem lockInv_upLock (h : LockInv s) (ht : (s.pc t).lockRole = .owner) (hp : p.lockRole = .away) :
    LockInv (s.upLock.setPc t p) := by
  obtain ⟨hw, heq⟩ | ⟨t', ts, w, hw, hpc, heq⟩ := upLock_eq h
  · rw [heq]
    refine lockInv_setPc ?_
    rw [hp, ← hw]
    exact h.give ht
  · have hne : t ≠ t' := by
      rintro rfl
      rw [hpc] at ht
      cases ht
    have hgive := (h.unblock hw).give (t := t) (by rwa [update_of_ne hne])
    rw [heq]
    refine lockInv_setPc ?_
    rw [hp]
    change LockOk _ _ (update (Pc.lockRole ∘ update s.pc t' (.acquire w)) t .away)
    rwa [comp_update]

end

end Pintos.Synch
