/-
  The handshake between `process_wait` and `thread_exit`.

  Only part of the state matters for it: of every thread its `tid`, `pt`, its `is_waited_by_parent` flag,
  where it stands and whether it is blocked (`Core`).
-/
import Pintos.Threads

namespace Pintos

open List Function

/-- Inside `process_wait (pid)`, after `st` was looked up and before `thread_block`. -/
def Pc.Holds (k : Pc) (pid : ℤ) (st : Page) : Prop :=
  k = .waitFound pid st ∨ k = .waitParent pid st ∨ k = .waitFlag pid st ∨ k = .waitBlock pid st

/-- As `Holds`, for some `pid`. -/
def Pc.holds (st : Page) : Pc → Bool
  | .waitFound _ x | .waitParent _ x | .waitFlag _ x | .waitBlock _ x => x == st
  | _ => false

/-- Inside `thread_exit`, after the test of `is_waited_by_parent`. -/
def Pc.tested : Pc → Bool
  | .exitUnblock _ | .exitRemove => true
  | _ => false

/-- The condition under which the handshake works: `thread_exit` does not test the flag of a
    thread while another thread has looked it up in `process_wait` and not blocked yet,
    `process_wait` does not look up a thread that has already tested its flag, and `exit`
    overwrites no memory in use. -/
def NoRace (s : Threads) : Label → Prop
  | .advance p =>
    (s.mem p).any (fun t => t.pc == .exiting) = true →
      (s.allList.all fun q => !(s.mem q).any fun t => t.pc.holds p) = true
  | .exit _ _ hits => hits = false
  | .wait _ pid => ((s.getThreadByPid pid).all fun st => !(s.mem st).any fun t => t.pc.tested) = true
  | _ => True

instance : ∀ (s : Threads) (l : Label), Decidable (NoRace s l)
  | _, .advance _ => inferInstanceAs (Decidable (_ → _))
  | _, .wait _ _ => inferInstanceAs (Decidable (_ = _))
  | _, .exit _ _ _ => inferInstanceAs (Decidable (_ = _))
  | _, .execute .. | _, .kill _ | _, .invalid _ | _, .sleep _ | _, .wake .. => isTrue trivial

/-! ## The view -/

/-- What the handshake depends on. -/
structure Core where
  tid : ℤ
  pt : Option Page
  waited : Bool
  pc : Pc
  blocked : Bool

def Thread.core (t : Thread) : Core :=
  ⟨t.tid, t.pt, t.isWaitedByParent, t.pc, t.status == .blocked⟩

@[simp] theorem Thread.setExit_core (t : Thread) (pid code : ℤ) : (t.setExit pid code).core = t.core := rfl

theorem Thread.pushSub_core (t : Thread) (tid : ℤ) (rec : Option ℤ) :
    (t.pushSub tid rec).core = t.core := by
  cases rec <;> rfl

def Threads.view (s : Threads) : Page → Option Core := fun p => (s.mem p).map Thread.core

/-- A thread, up to which of the threads that are not blocked runs. -/
def Thread.card (t : Thread) : Thread :=
  { t with status := if t.status = .blocked then .blocked else .ready }

def Threads.cards (s : Threads) : Page → Option Thread := fun p => (s.mem p).map Thread.card

theorem Thread.card_core (t : Thread) : t.card.core = t.core := by
  by_cases h : t.status = .blocked <;> simp [Thread.card, Thread.core, h]

theorem Threads.view_cards (s : Threads) : s.view = fun p => (s.cards p).map Thread.core := by
  funext p
  cases h : s.mem p <;> simp [view, cards, h, Thread.card_core]

/-- Moves of one thread that change only where it stands. -/
inductive Goto (m : Page → Option Core) (p : Page) (c : Core) : Pc → Prop
  | start {k} : c.pc = .user → (k = .exiting ∨ k = .faulting ∨ ∃ pid, k = .waitGone pid) → Goto m p c k
  | look {pid st d} : c.pc = .user → m st = some d → d.tid = pid → d.pc.tested = false →
      Goto m p c (.waitFound pid st)
  | gone {pid} : c.pc = .waitGone pid → Goto m p c .user
  | waited {pid st} : c.pc = .waitFound pid st → Goto m p c .user
  | notWaited {pid st} : c.pc = .waitFound pid st → Goto m p c (.waitParent pid st)
  | stranger {pid st} : c.pc = .waitParent pid st → Goto m p c .user
  | parent {pid st d} : c.pc = .waitParent pid st → m st = some d → d.pt = some p →
      Goto m p c (.waitFlag pid st)
  | woken {pid st} : c.pc = .waitBlocked pid st → Goto m p c .user
  | test {q} : c.pc = .exiting → c.waited = true → c.pt = some q →
      (∀ q c' pid, m q = some c' → ¬ c'.pc.Holds pid p) → Goto m p c (.exitUnblock q)
  | testNot : c.pc = .exiting → (c.waited = false ∨ c.pt = none) →
      (∀ q c' pid, m q = some c' → ¬ c'.pc.Holds pid p) → Goto m p c .exitRemove
  | resume {k} : c.pc = .asleep k → Goto m p c k

/-- What one step of the thread at `p` can do. -/
inductive Move (m : Page → Option Core) (p : Page) : (Page → Option Core) → Prop
  | stay : Move m p m
  | goto {c k} : m p = some c → c.blocked = false → Goto m p c k →
      Move m p (update m p (some { c with pc := k }))
  | flag {c pid st d} : m p = some c → c.blocked = false → c.pc = .waitFlag pid st → st ≠ p →
      m st = some d →
      Move m p (update (update m p (some { c with pc := .waitBlock pid st })) st
        (some { d with waited := true }))
  | block {c pid st} : m p = some c → c.blocked = false → c.pc = .waitBlock pid st →
      Move m p (update m p (some { c with pc := .waitBlocked pid st, blocked := true }))
  | sleep {c} : m p = some c → c.blocked = false → (c.pc = .user ∨ c.pc = .exiting) →
      Move m p (update m p (some { c with pc := .asleep c.pc, blocked := true }))
  | wake {q u k} : m q = some u → u.pc = .asleep k → u.blocked = true →
      Move m p (update m q (some { u with blocked := false }))
  | unblock {c q u} : m p = some c → c.blocked = false → c.pc = .exitUnblock q → q ≠ p →
      m q = some u → u.blocked = true →
      Move m p (update (update m p (some { c with pc := .exitRemove })) q
        (some { u with blocked := false }))
  | remove {c} : m p = some c → c.blocked = false → c.pc = .exitRemove →
      Move m p (update m p none)

theorem Move.pc_of_ne {m m' : Page → Option Core} {p q : Page} {c : Core} (h : Move m p m')
    (hq : q ≠ p) (hc : m' q = some c) : ∃ c0, m q = some c0 ∧ c0.pc = c.pc := by
  cases h <;> grind [update_apply]

/-! ## The invariant -/

structure HandshakeInv (m : Page → Option Core) : Prop where
  noSelf : ∀ p c, m p = some c → c.pt ≠ some p
  asleep : ∀ p c k, m p = some c → c.pc = .asleep k → k = .user ∨ k = .exiting
  found : ∀ p c pid st, m p = some c → c.pc.Holds pid st →
    ∃ d, m st = some d ∧ d.tid = pid ∧ d.pc.tested = false
  mine : ∀ p c pid st d, m p = some c → (c.pc = .waitFlag pid st ∨ c.pc = .waitBlock pid st) →
    m st = some d → d.pt = some p
  flagged : ∀ p c pid st d, m p = some c → c.pc = .waitBlock pid st → m st = some d →
    d.waited = true
  blocked : ∀ p c pid st, m p = some c → c.pc = .waitBlocked pid st → c.blocked = true →
    ∃ d, m st = some d ∧ d.tid = pid ∧ d.pt = some p ∧ d.waited = true ∧ d.pc ≠ .exitRemove
  unblock : ∀ p c q, m p = some c → c.pc = .exitUnblock q →
    ∃ u, m q = some u ∧ u.blocked = true ∧ u.pc = .waitBlocked c.tid p
  waiting : ∀ p c, m p = some c → c.waited = true → c.pc.tested = false →
    ∃ q u, c.pt = some q ∧ m q = some u ∧
      (u.pc = .waitBlock c.tid p ∨ u.pc = .waitBlocked c.tid p ∧ u.blocked = true)

section
attribute [local grind =] update_apply
attribute [local grind] Pc.Holds Pc.tested

variable {m : Page → Option Core} {p : Page} {c : Core} {k : Pc}

section

variable (h : HandshakeInv m)
include h

theorem HandshakeInv.goto_of (hp : m p = some c) (hb : c.blocked = false) (hw : ∀ pid st, c.pc ≠ .waitBlock pid st)
    (hc : c.pc.tested = false) (hk : ∀ pid st, k ≠ .waitBlock pid st)
    (asleep : ∀ k', k = .asleep k' → k' = .user ∨ k' = .exiting)
    (found : ∀ pid st, k.Holds pid st → ∃ d, m st = some d ∧ d.tid = pid ∧ d.pc.tested = false)
    (mine : ∀ pid st d, k = .waitFlag pid st → m st = some d → d.pt = some p)
    (unblock : ∀ q, k = .exitUnblock q → ∃ u, m q = some u ∧ u.blocked = true ∧ u.pc = .waitBlocked c.tid p)
    (free : k.tested = true → ∀ q c' pid, m q = some c' → ¬ c'.pc.Holds pid p)
    (remove : k = .exitRemove → c.waited = false ∨ c.pt = none) :
    HandshakeInv (update m p (some { c with pc := k })) := by
  have hold : ∀ q pid, k.Holds pid q → k.tested = false := by grind
  constructor
  · grind [HandshakeInv.noSelf]
  · have := h.asleep
    grind
  · intro p' c' pid st hp' hh
    have hst : ∃ d, m st = some d ∧ d.tid = pid ∧ d.pc.tested = false := by
      have := h.found
      grind
    obtain ⟨d, hd, ht, hd'⟩ := hst
    rcases eq_or_ne st p with rfl | hne
    · obtain rfl : c = d := by grind
      refine ⟨{ c with pc := k }, by simp, ht, ?_⟩
      rcases eq_or_ne p' st with rfl | hne'
      · grind
      · by_contra hkt
        simp only [ne_eq, hne', not_false_eq_true, update_of_ne] at hp'
        exact free (by simpa using hkt) p' c' pid hp' hh
    · exact ⟨d, by simp [hne, hd], ht, hd'⟩
  · have := h.mine
    grind
  · have := h.flagged
    grind
  · have := h.blocked
    grind
  · have := h.unblock
    grind
  · have := h.waiting
    grind

theorem HandshakeInv.goto (hp : m p = some c) (hb : c.blocked = false) (hk : Goto m p c k) :
    HandshakeInv (update m p (some { c with pc := k })) := by
  cases hk with
  | start hu hk => apply h.goto_of hp hb <;> grind
  | look hu hst hd ht => apply h.goto_of hp hb <;> grind
  | gone hg => apply h.goto_of hp hb <;> grind
  | waited hf => apply h.goto_of hp hb <;> grind
  | @notWaited pid st hf =>
    have hst := h.found p c pid st hp (.inl hf)
    apply h.goto_of hp hb <;> grind
  | stranger hf => apply h.goto_of hp hb <;> grind
  | @parent pid st d hf hd hpt =>
    have hst := h.found p c pid st hp (.inr (.inl hf))
    apply h.goto_of hp hb <;> grind
  | woken hw => apply h.goto_of hp hb <;> grind
  | @test q he hw hpt hno =>
    -- the parent has set the flag; as it does not hold the child any more, it is blocked
    obtain ⟨q', u, hq, hu, hu' | hu'⟩ := h.waiting p c hp hw (by simp [he, Pc.tested])
    · exact absurd (.inr (.inr (.inr hu'))) (hno q' u c.tid hu)
    · apply h.goto_of hp hb <;> grind
  | testNot he hw hno => apply h.goto_of hp hb <;> grind
  | @resume k ha =>
    have := h.asleep p c k hp ha
    apply h.goto_of hp hb <;> grind

theorem HandshakeInv.flag {st : Page} {d : Core} {pid : ℤ}
    (hp : m p = some c) (hk : c.pc = .waitFlag pid st) (hne : st ≠ p) (hd : m st = some d) :
    HandshakeInv (update (update m p (some { c with pc := .waitBlock pid st })) st
      (some { d with waited := true })) := by
  have hpt : d.pt = some p := h.mine p c pid st d hp (.inl hk) hd
  have hfd : d.tid = pid ∧ d.pc.tested = false := by
    have := h.found p c pid st hp (.inr (.inr (.inl hk)))
    grind
  obtain ⟨noSelf, asleep, found, mine, flagged, blocked, unblock, waiting⟩ := h
  constructor <;> grind

theorem HandshakeInv.block {st : Page} {pid : ℤ}
    (hp : m p = some c) (hk : c.pc = .waitBlock pid st) :
    HandshakeInv (update m p (some { c with pc := .waitBlocked pid st, blocked := true })) := by
  obtain ⟨d, hd, htid, ht⟩ := h.found p c pid st hp (.inr (.inr (.inr hk)))
  have hpt : d.pt = some p := h.mine p c pid st d hp (.inr hk) hd
  have hw : d.waited = true := h.flagged p c pid st d hp hk hd
  obtain ⟨noSelf, asleep, found, mine, flagged, blocked, unblock, waiting⟩ := h
  constructor <;> grind

theorem HandshakeInv.sleep {b : Bool} (hp : m p = some c) (hc : c.pc = .user ∨ c.pc = .exiting ∨ c.pc.isAsleep)
    (hk : k = .asleep .user ∨ k = .asleep .exiting) :
    HandshakeInv (update m p (some { c with pc := k, blocked := b })) := by
  have ht : c.pc.tested = false := by
    rcases hc with h | h | h
    · simp [h, Pc.tested]
    · simp [h, Pc.tested]
    · cases hpc : c.pc <;> simp_all [Pc.isAsleep, Pc.tested]
  obtain ⟨noSelf, asleep, found, mine, flagged, blocked, unblock, waiting⟩ := h
  constructor <;> grind [Pc.isAsleep]

theorem HandshakeInv.unblocked {q : Page} {u : Core}
    (hp : m p = some c) (hk : c.pc = .exitUnblock q) (hne : q ≠ p) (hu : m q = some u) :
    HandshakeInv (update (update m p (some { c with pc := .exitRemove })) q
      (some { u with blocked := false })) := by
  obtain ⟨u', hu', hub, hupc⟩ := h.unblock p c q hp hk
  obtain rfl : u = u' := by grind
  obtain ⟨d, hd, -, hpt, hw, -⟩ := h.blocked q u c.tid p hu hupc hub
  obtain rfl : c = d := by grind
  obtain ⟨noSelf, asleep, found, mine, flagged, blocked, unblock, waiting⟩ := h
  constructor <;> grind

theorem HandshakeInv.removed (hp : m p = some c) (hk : c.pc = .exitRemove) : HandshakeInv (update m p none) := by
  obtain ⟨noSelf, asleep, found, mine, flagged, blocked, unblock, waiting⟩ := h
  constructor <;> grind

theorem HandshakeInv.created {q : Page} {tid : ℤ}
    (hp : m p = some c) (hq : m q = none) :
    HandshakeInv (update m q (some ⟨tid, some p, false, .user, false⟩)) := by
  -- nobody holds the new page: it was free
  have hst : ∀ p' c' pid, m p' = some c' → c'.pc ≠ .waitFlag pid q ∧ c'.pc ≠ .waitBlock pid q := by
    intro p' c' pid hp'
    have := h.found p' c' pid q hp'
    constructor <;> intro hk <;> simp [Pc.Holds, hk, hq] at this
  obtain ⟨noSelf, asleep, found, mine, flagged, blocked, unblock, waiting⟩ := h
  constructor <;> grind

end

/-- **Every move keeps the handshake intact.** -/
theorem HandshakeInv.move {m' : Page → Option Core} (h : HandshakeInv m) (hm : Move m p m') :
    HandshakeInv m' := by
  cases hm with
  | stay => exact h
  | goto hp hb hk => exact h.goto hp hb hk
  | flag hp _ hk hne hd => exact h.flag hp hk hne hd
  | block hp _ hk => exact h.block hp hk
  | sleep hp _ hk => exact h.sleep hp (by grind) (by grind)
  | @wake q u k hq hk _ =>
    have := h.sleep (k := u.pc) (b := false) hq (by simp [hk, Pc.isAsleep]) (by have := h.asleep q u k hq hk; grind)
    exact this
  | unblock hp _ hk hne hu _ => exact h.unblocked hp hk hne hu
  | remove hp _ hk => exact h.removed hp hk

end

/-! ## From steps to moves -/

namespace Threads

@[simp] theorem view_set (s : Threads) (p : Page) (t : Thread) :
    (s.set p t).view = update s.view p (some t.core) := by
  funext q
  by_cases h : q = p
  · subst h; simp [view, set]
  · simp [view, set, h]

@[simp] theorem view_goto (s : Threads) (p : Page) (t : Thread) (k : Pc) :
    (s.goto p t k).view = update s.view p (some { t.core with pc := k }) := by
  simp [goto, Thread.core]

@[simp] theorem view_record (s : Threads) (e : Event) : (s.record e).view = s.view := rfl

theorem view_eq {s : Threads} {p : Page} {t : Thread} (h : s.mem p = some t) :
    s.view p = some t.core := by simp [view, h]

/-- In `s1` the scheduler has switched from `s` to the thread `t` at `p`. -/
structure Enters (s : Threads) (p : Page) (s1 : Threads) (t : Thread) : Prop where
  cards : s1.cards = s.cards
  mem : s1.mem p = some t
  old : ∃ t0, s.mem p = some t0 ∧ t = { t0 with status := .running }
  allList : s1.allList = s.allList
  listed : p ∈ s1.allList
  log : s1.log = s.log
  nextTid : s1.nextTid = s.nextTid
  panicked : s1.panicked = false
  blocked : t.core.blocked = false

variable {s1 : Threads}

theorem Enters.view {s : Threads} {p : Page} {t : Thread} (h : Enters s p s1 t) : s1.view = s.view := by
  rw [view_cards, view_cards, h.cards]

theorem enter_spec {s : Threads} {p : Page} {t : Thread} (h : s.enter p = some (s1, t)) :
    Enters s p s1 t := by
  unfold enter at h
  split_ifs at h with h₀
  obtain ⟨hpan, -, hp⟩ := h₀
  cases hm : s.mem p with
  | none => simp [hm] at h
  | some t0 =>
    simp only [hm] at h
    split_ifs at h with hb
    obtain ⟨rfl, rfl⟩ : s.dispatch p = s1 ∧ { t0 with status := .running } = t := by simpa using h
    push Not at hb
    refine ⟨?_, ?_, ⟨t0, hm, rfl⟩, rfl, hp, rfl, rfl, hpan, rfl⟩
    · funext q
      simp only [cards, dispatch, Option.map_map]
      cases hq : s.mem q with
      | none => rfl
      | some u =>
        by_cases hqp : q = p
        · subst hqp
          obtain rfl : t0 = u := by simpa [hm] using hq
          simp [Thread.card, hb.1]
        · by_cases hr : u.status = .running <;> simp [Thread.card, hqp, hr]
    · simp [dispatch, hm]

theorem getThreadByPid_congr {s : Threads} (hv : s1.view = s.view) (ha : s1.allList = s.allList)
    (pid : ℤ) : s1.getThreadByPid pid = s.getThreadByPid pid := by
  have hany : ∀ (s : Threads) p, ((s.mem p).any fun t => t.tid == pid) =
      (s.view p).any fun c => c.tid == pid := by
    intro s p; simp only [view]; cases s.mem p <;> rfl
  simp only [getThreadByPid, hany, hv, ha]

theorem view_set_core {s : Threads} {p : Page} {t t' : Thread} (h : s.mem p = some t)
    (hc : t'.core = t.core) : (s.set p t').view = s.view := by
  rw [view_set, hc, ← view_eq h, update_eq_self]

theorem call_spec {s s' : Threads} {p : Page} {f : Threads → Thread → Option Threads}
    (h : s.call p f = some s') :
    ∃ s1 t, s.enter p = some (s1, t) ∧ t.pc = .user ∧ f s1 t = some s' := by
  unfold call at h
  split at h
  · rename_i s1 t he
    split_ifs at h with hu
    exact ⟨s1, t, he, hu, h⟩
  · cases h

/-! The calls, in a state `s` in which the thread `t` at `p` runs. -/

section
variable {s s' : Threads} {p : Page} {t : Thread}

theorem processExecute_spec {fnCopy : Bool} {page : Option Page} {rec : Option ℤ}
    (hp : s.mem p = some t) (h : s.processExecute p t fnCopy page rec = some s') :
    s'.panicked = s.panicked ∧ (s'.view = s.view ∧ s'.allList = s.allList ∨
      ∃ q, s.view q = none ∧ s'.allList = s.allList ++ [q] ∧
        s'.view = update s.view q (some ⟨s.nextTid, some p, false, .user, false⟩)) := by
  unfold processExecute at h
  split_ifs at h with hf
  · obtain rfl : s.set p t = s' := by simpa using h
    exact ⟨rfl, .inl ⟨view_set_core hp rfl, rfl⟩⟩
  · cases page with
    | none =>
      cases h
      exact ⟨rfl, .inl ⟨view_set_core hp (t.pushSub_core ..), rfl⟩⟩
    | some q =>
      dsimp only at h
      split_ifs at h with hq
      push Not at hq
      cases h
      refine ⟨rfl, .inr ⟨q, by simp [view, Option.not_isSome_iff_eq_none.1 hq.1], rfl, ?_⟩⟩
      change ((s.set p _).set q _).view = _
      rw [view_set, view_set_core hp (t.pushSub_core ..)]
      rfl

theorem exit_move {status : ℤ} {hits : Bool} (hp : s.mem p = some t) (hb : t.core.blocked = false)
    (hu : t.pc = .user) : Move s.view p (s.exit p t status hits).view := by
  have hgo : ∀ k, (k = .exiting ∨ k = .faulting) →
      Move s.view p (update s.view p (some { t.core with pc := k })) := fun k hk =>
    .goto (view_eq hp) hb (.start hu (by tauto))
  have hv : (s.orphan t hits).view = s.view := rfl
  unfold exit
  cases hq : t.pt with
  | none => rw [view_goto]; exact hgo _ (.inr rfl)
  | some q =>
    dsimp only
    cases hm : (s.orphan t hits).mem q with
    | none => rw [view_goto]; exact hgo _ (.inr rfl)
    | some pt =>
      rw [view_record, view_goto, view_set_core hm (Thread.setExit_core ..), hv]; exact hgo _ (.inl rfl)

theorem processInvalidExit_move (hp : s.mem p = some t) (hb : t.core.blocked = false)
    (hu : t.pc = .user) : Move s.view p (s.processInvalidExit p t).view := by
  have hf : Move s.view p (update s.view p (some { t.core with pc := .faulting })) :=
    .goto (view_eq hp) hb (.start hu (by tauto))
  unfold processInvalidExit
  cases hq : t.pt with
  | none => rwa [view_goto]
  | some q =>
    dsimp only
    cases hm : s.mem q with
    | none => rwa [view_goto]
    | some pt =>
      have hc : ({ t.core with pc := .user } : Core) = t.core := by
        rw [← hu]; rfl
      rw [view_goto, view_set_core hm (Thread.setExit_core ..), hc, ← view_eq hp, update_eq_self]
      exact .stay

variable {st : Page}

theorem getThreadByPid_spec {pid : ℤ} (h : s.getThreadByPid pid = some st) :
    st ∈ s.allList ∧ ∃ c, s.mem st = some c ∧ c.tid = pid := by
  have h1 := find?_some h
  refine ⟨mem_of_find?_eq_some h, ?_⟩
  obtain ⟨c, hc, ht⟩ := (Option.any_eq_true _ _).1 h1
  exact ⟨c, hc, by simpa using ht⟩

theorem processWait_move {pid : ℤ} (hp : s.mem p = some t) (hb : t.core.blocked = false)
    (hu : t.pc = .user)
    (hr : ∀ st c, s.getThreadByPid pid = some st → s.mem st = some c → c.pc.tested = false) :
    Move s.view p (s.processWait p t pid).view := by
  unfold processWait
  cases hg : s.getThreadByPid pid with
  | none =>
    rw [view_goto]
    exact .goto (view_eq hp) hb (.start hu (by simp))
  | some st =>
    obtain ⟨-, c, hc, htid⟩ := getThreadByPid_spec hg
    rw [view_goto]
    exact .goto (view_eq hp) hb (.look hu (view_eq hc) htid (hr st c hg hc))

theorem isParent_spec {ct : Page} (h : s.isParent st ct = true) :
    ∃ d, s.mem st = some d ∧ d.pt = some ct := by
  unfold isParent at h
  split at h
  · rename_i d hd; exact ⟨d, hd, by simpa using h⟩
  · cases h

theorem setWaited_view {d : Thread} (h : s.mem st = some d) :
    (s.setWaited st).view = update s.view st (some { d.core with waited := true }) := by
  simp [setWaited, h, Thread.core]

theorem threadUnblock_view {q : Page} {u : Thread} (h : s.mem q = some u) (hb : u.status = .blocked) :
    (s.threadUnblock q).view = update s.view q (some { u.core with blocked := false }) ∧
      (s.threadUnblock q).panicked = s.panicked := by
  simp only [threadUnblock, h, hb, if_true, view_set]
  exact ⟨rfl, rfl⟩

theorem threadRemove_move (hp : s.mem p = some t) (hb : t.core.blocked = false)
    (hk : t.pc = .exitRemove) : Move s.view p (s.threadRemove p t).view := by
  by_cases h : p = initialThread
  · have : (s.threadRemove p t).view = s.view := by
      funext q
      by_cases hq : q = p
      · subst hq
        simp only [Thread.core, beq_eq_false_iff_ne, ne_eq] at hb
        simp only [view, threadRemove, if_pos h, update_self, hp, Option.map_some]
        simp [Thread.core, hb]
      · simp [view, threadRemove, hq]
    rw [this]; exact .stay
  · have : (s.threadRemove p t).view = update s.view p none := by
      funext q
      by_cases hq : q = p
      · subst hq; simp [view, threadRemove, h]
      · simp [view, threadRemove, hq]
    rw [this]; exact .remove (view_eq hp) hb hk

theorem advance_move (hi : HandshakeInv s.view) (hp : s.mem p = some t)
    (hb : t.core.blocked = false)
    (hr : t.pc = .exiting → ∀ q c pid, s.view q = some c → ¬ c.pc.Holds pid p)
    (h : s.advance p t = some s') : Move s.view p s'.view ∧ s'.panicked = s.panicked := by
  have hv := view_eq hp
  have hgo : ∀ k, Goto s.view p t.core k → Move s.view p (s.goto p t k).view := by
    intro k hk
    rw [view_goto]; exact .goto hv hb hk
  unfold advance at h
  cases hk : t.pc with
  | waitGone pid =>
    rw [hk] at h; cases h
    exact ⟨hgo _ (.gone hk), rfl⟩
  | waitFound pid st =>
    simp only [hk] at h
    split_ifs at h
    · cases h
      exact ⟨hgo _ (.waited hk), rfl⟩
    · cases h
      exact ⟨hgo _ (.notWaited hk), rfl⟩
  | waitParent pid st =>
    simp only [hk] at h
    split_ifs at h with hpar
    · cases h
      obtain ⟨d, hd, hpt⟩ := isParent_spec hpar
      exact ⟨hgo _ (.parent hk (view_eq hd) hpt), rfl⟩
    · cases h
      exact ⟨hgo _ (.stranger hk), rfl⟩
  | waitFlag pid st =>
    rw [hk] at h; cases h
    obtain ⟨d, hd, -, -⟩ := hi.found p t.core pid st hv (.inr (.inr (.inl hk)))
    obtain ⟨d, hm, rfl⟩ := Option.map_eq_some_iff.1 hd
    have hne : st ≠ p := by
      rintro rfl
      have := hi.mine st t.core pid st t.core hv (.inl hk) hv
      exact hi.noSelf st t.core hv this
    have hd' : (s.goto p t (.waitBlock pid st)).mem st = some d := by
      simp [goto, set, hne, hm]
    refine ⟨?_, by simp only [setWaited, hd']; rfl⟩
    rw [setWaited_view hd', view_goto]
    exact .flag hv hb hk hne hd
  | waitBlock pid st =>
    rw [hk] at h; cases h
    refine ⟨?_, rfl⟩
    rw [view_set]
    exact .block hv hb hk
  | waitBlocked pid st =>
    rw [hk] at h; cases h
    exact ⟨hgo _ (.woken hk), rfl⟩
  | exiting =>
    simp only [hk] at h
    cases hw : t.isWaitedByParent <;> cases hq : t.pt <;>
      simp only [hw, hq, Option.some.injEq] at h <;> subst h
    · exact ⟨hgo _ (.testNot hk (.inl hw) (hr hk)), rfl⟩
    · exact ⟨hgo _ (.testNot hk (.inl hw) (hr hk)), rfl⟩
    · exact ⟨hgo _ (.testNot hk (.inr hq) (hr hk)), rfl⟩
    · exact ⟨hgo _ (.test hk hw hq (hr hk)), rfl⟩
  | exitUnblock q =>
    rw [hk] at h; cases h
    obtain ⟨u, hu, hub, hupc⟩ := hi.unblock p t.core q hv hk
    have hne : q ≠ p := by
      rintro rfl
      rw [hv] at hu; cases hu
      simp [Thread.core, hk] at hupc
    obtain ⟨u, hm, rfl⟩ := Option.map_eq_some_iff.1 hu
    have hu' : (s.goto p t .exitRemove).mem q = some u := by simp [goto, set, hne, hm]
    obtain ⟨h1, h2⟩ := threadUnblock_view hu' (by simpa [Thread.core] using hub)
    refine ⟨?_, h2.trans rfl⟩
    rw [h1, view_goto]
    exact .unblock hv hb hk hne hu hub
  | exitRemove =>
    rw [hk] at h; cases h
    exact ⟨threadRemove_move hp hb hk, rfl⟩
  | asleep k =>
    rw [hk] at h; cases h
    exact ⟨hgo _ (.resume hk), rfl⟩
  | user | faulting => simp [hk] at h

end

end Threads

/-! ## Runs -/

/-- What holds in every state of a run without races. -/
structure WaitInv (s : Threads) : Prop where
  handshake : HandshakeInv s.view
  /-- a thread leaves `all_list` in the last step of `thread_exit` only -/
  listed : ∀ p c, s.view p = some c → c.pc ≠ .exitRemove → p ∈ s.allList
  panicked : s.panicked = false

theorem Pc.holds_of_Holds {k : Pc} {pid : ℤ} {st : Page} (h : k.Holds pid st) : k.holds st = true := by
  rcases h with h | h | h | h <;> simp [h, Pc.holds]

namespace WaitInv
variable {s s' : Threads} {p : Page}

theorem free (hi : WaitInv s) (hr : NoRace s (.advance p)) {t : Thread} (hp : s.mem p = some t)
    (ht : t.pc = .exiting) : ∀ q c pid, s.view q = some c → ¬ c.pc.Holds pid p := by
  intro q c pid hq hh
  have hl : q ∈ s.allList := hi.listed q c hq (by rintro hk; simp [Pc.Holds, hk] at hh)
  have := all_eq_true.1 (hr (by simp [hp, ht])) q hl
  obtain ⟨u, hu, rfl⟩ := Option.map_eq_some_iff.1 hq
  simp only [hu, Option.any_some, Bool.not_eq_eq_eq_not, Bool.not_true] at this
  have hh' : u.pc.holds p = true := Pc.holds_of_Holds hh
  rw [this] at hh'; cases hh'

theorem of_move (hi : WaitInv s) (hm : Move s.view p s'.view) (hpan : s'.panicked = false)
    (hall : ∀ q ∈ s.allList, q ≠ p → q ∈ s'.allList)
    (hp : ∀ c, s'.view p = some c → c.pc ≠ .exitRemove → p ∈ s'.allList) : WaitInv s' := by
  refine ⟨hi.handshake.move hm, ?_, hpan⟩
  intro q c hq hk
  by_cases hqp : q = p
  · subst hqp; exact hp c hq hk
  · obtain ⟨c0, h, hc⟩ := hm.pc_of_ne hqp hq
    exact hall q (hi.listed q c0 h (hc ▸ hk)) hqp

theorem of_move_listed (hi : WaitInv s) (hm : Move s.view p s'.view) (hpan : s'.panicked = false)
    (hp : p ∈ s.allList) (hall : s'.allList = s.allList) : WaitInv s' :=
  hi.of_move hm hpan (fun _ hq _ => hall ▸ hq) (fun _ _ _ => hall ▸ hp)

end WaitInv

namespace Threads
variable {s s' s1 : Threads} {p : Page} {t : Thread}

/-- What only `process_execute` and `thread_exit` change. -/
def Frame (s s' : Threads) : Prop :=
  s'.allList = s.allList ∧ s'.panicked = s.panicked ∧ s'.nextTid = s.nextTid

theorem exit_frame (s : Threads) (p : Page) (t : Thread) (status : ℤ) (hits : Bool) :
    Frame s (s.exit p t status hits) := by
  unfold exit
  dsimp only
  split
  · exact ⟨rfl, rfl, rfl⟩
  · split <;> exact ⟨rfl, rfl, rfl⟩

theorem processInvalidExit_frame (s : Threads) (p : Page) (t : Thread) :
    Frame s (s.processInvalidExit p t) := by
  unfold processInvalidExit
  split
  · exact ⟨rfl, rfl, rfl⟩
  · split <;> exact ⟨rfl, rfl, rfl⟩

theorem processWait_frame (s : Threads) (p : Page) (t : Thread) (pid : ℤ) :
    Frame s (s.processWait p t pid) := by
  unfold processWait
  split <;> exact ⟨rfl, rfl, rfl⟩

theorem setWaited_frame (s : Threads) (st : Page) : Frame s (s.setWaited st) := by
  unfold setWaited; split <;> exact ⟨rfl, rfl, rfl⟩

theorem threadUnblock_lists (s : Threads) (q : Page) :
    (s.threadUnblock q).allList = s.allList ∧ (s.threadUnblock q).nextTid = s.nextTid := by
  unfold threadUnblock
  split
  · split_ifs <;> exact ⟨rfl, rfl⟩
  · exact ⟨rfl, rfl⟩

theorem advance_lists (h : s.advance p t = some s') : s'.nextTid = s.nextTid ∧
    (s'.allList = s.allList ∨ t.pc = .exitRemove ∧ s' = s.threadRemove p t) := by
  unfold advance at h
  cases hk : t.pc with
  | exitRemove =>
    rw [hk] at h; cases h
    exact ⟨rfl, .inr ⟨rfl, rfl⟩⟩
  | waitFound pid st | waitParent pid st =>
    simp only [hk] at h
    split_ifs at h <;> simp only [Option.some.injEq] at h <;> subst h <;> exact ⟨rfl, .inl rfl⟩
  | exiting =>
    simp only [hk] at h
    split at h <;> simp only [Option.some.injEq] at h <;> subst h <;> exact ⟨rfl, .inl rfl⟩
  | waitFlag pid st =>
    rw [hk] at h; cases h
    obtain ⟨h1, -, h2⟩ := setWaited_frame (s.goto p t (.waitBlock pid st)) st
    exact ⟨h2, .inl h1⟩
  | exitUnblock q =>
    rw [hk] at h; cases h
    obtain ⟨h1, h2⟩ := threadUnblock_lists (s.goto p t .exitRemove) q
    exact ⟨h2, .inl h1⟩
  | waitGone _ | waitBlock _ _ | waitBlocked _ _ | asleep _ =>
    rw [hk] at h; cases h
    exact ⟨rfl, .inl rfl⟩
  | user | faulting => simp [hk] at h

theorem WaitInv.enters (hi : WaitInv s) (he : Enters s p s1 t) : WaitInv s1 :=
  ⟨he.view ▸ hi.handshake, fun q c hq hk => he.allList ▸ hi.listed q c (he.view ▸ hq) hk, he.panicked⟩

theorem execute_waitInv {fnCopy : Bool} {page : Option Page} {rec : Option ℤ} (hi : WaitInv s)
    (hp : s.mem p = some t) (h : s.processExecute p t fnCopy page rec = some s') : WaitInv s' := by
  obtain ⟨hpan, ⟨hv, hall⟩ | ⟨q, hq, hall, hv⟩⟩ := processExecute_spec hp h
  · exact ⟨hv ▸ hi.handshake, fun q c hq hk => hall ▸ hi.listed q c (hv ▸ hq) hk,
      hpan.trans hi.panicked⟩
  · refine ⟨hv ▸ hi.handshake.created (view_eq hp) hq, fun q' c hq' hk => ?_, hpan.trans hi.panicked⟩
    rw [hall]
    by_cases hqq : q' = q
    · simp [hqq]
    · rw [hv, update_of_ne hqq] at hq'
      exact mem_append_left _ (hi.listed q' c hq' hk)

theorem advance_waitInv (hi : WaitInv s) (hp : s.mem p = some t) (hl : p ∈ s.allList)
    (hb : t.core.blocked = false)
    (hr : t.pc = .exiting → ∀ q c pid, s.view q = some c → ¬ c.pc.Holds pid p)
    (h : s.advance p t = some s') : WaitInv s' := by
  obtain ⟨hm, hpan⟩ := advance_move hi.handshake hp hb hr h
  have hpan' := hpan.trans hi.panicked
  rcases (advance_lists h).2 with hall | ⟨hk, rfl⟩
  · exact hi.of_move_listed hm hpan' hl hall
  · refine hi.of_move hm hpan' (fun q hq hne => (mem_erase_of_ne hne).2 hq) ?_
    intro c hc hk'
    -- the page of the thread that ends is free, or holds the dying initial thread
    obtain ⟨u, hu, rfl⟩ := Option.map_eq_some_iff.1 hc
    simp only [threadRemove, update_self] at hu
    split_ifs at hu
    cases hu
    exact absurd hk hk'

/-- **Every step without a race keeps the handshake intact.** -/
theorem step_waitInv {l : Label} (hi : WaitInv s) (hr : NoRace s l) (h : s.step l = some s') :
    WaitInv s' := by
  cases l with
  | execute p fnCopy page rec =>
    obtain ⟨s1, t, he, -, h⟩ := call_spec h
    have he := enter_spec he
    exact execute_waitInv (WaitInv.enters hi he) he.mem h
  | exit p status hits =>
    obtain ⟨s1, t, he, hu, h⟩ := call_spec h
    have he := enter_spec he
    cases h
    obtain ⟨hall, hpan, -⟩ := exit_frame s1 p t status hits
    exact (WaitInv.enters hi he).of_move_listed (exit_move he.mem he.blocked hu)
      (hpan.trans he.panicked) he.listed hall
  | kill p =>
    obtain ⟨s1, t, he, hu, h⟩ := call_spec h
    have he := enter_spec he
    cases h
    refine (WaitInv.enters hi he).of_move_listed ?_ he.panicked he.listed rfl
    rw [view_record, view_goto]
    exact .goto (view_eq he.mem) he.blocked (.start hu (by tauto))
  | invalid p =>
    obtain ⟨s1, t, he, hu, h⟩ := call_spec h
    have he := enter_spec he
    cases h
    obtain ⟨hall, hpan, -⟩ := processInvalidExit_frame s1 p t
    exact (WaitInv.enters hi he).of_move_listed (processInvalidExit_move he.mem he.blocked hu)
      (hpan.trans he.panicked) he.listed hall
  | wait p pid =>
    obtain ⟨s1, t, he, hu, h⟩ := call_spec h
    have he := enter_spec he
    cases h
    obtain ⟨hall, hpan, -⟩ := processWait_frame s1 p t pid
    refine (WaitInv.enters hi he).of_move_listed (processWait_move he.mem he.blocked hu ?_)
      (hpan.trans he.panicked) he.listed hall
    intro st c hst hc
    rw [getThreadByPid_congr he.view he.allList] at hst
    have hv : s.view st = some c.core := he.view ▸ view_eq hc
    obtain ⟨u, hu, huc⟩ := Option.map_eq_some_iff.1 hv
    have htest : u.pc.tested = false := by simpa [NoRace, hst, hu] using hr
    have hpc : u.pc = c.pc := congrArg Core.pc huc
    rwa [← hpc]
  | advance p =>
    simp only [step] at h
    split at h
    · rename_i s1 t he
      have he := enter_spec he
      refine advance_waitInv (WaitInv.enters hi he) he.mem he.listed he.blocked ?_ h
      intro hk
      obtain ⟨t0, ht0, rfl⟩ := he.old
      rw [he.view]
      exact hi.free hr ht0 hk
    · cases h
  | sleep p =>
    simp only [step] at h
    split at h
    · rename_i s1 t he
      have he := enter_spec he
      split_ifs at h with hk
      cases h
      refine (WaitInv.enters hi he).of_move_listed ?_ he.panicked he.listed rfl
      rw [view_set]
      exact .sleep (view_eq he.mem) he.blocked hk
    · cases h
  | wake p q =>
    obtain ⟨s1, t, he, hu, h⟩ := call_spec h
    have he := enter_spec he
    split at h
    · rename_i u hq
      split_ifs at h with hb
      obtain ⟨hb, hk⟩ := hb
      cases h
      obtain ⟨k, hk⟩ : ∃ k, u.pc = .asleep k := by
        cases hpc : u.pc <;> simp_all [Pc.isAsleep]
      obtain ⟨hv, hpan⟩ := threadUnblock_view hq hb
      refine (WaitInv.enters hi he).of_move_listed ?_ (hpan.trans he.panicked) he.listed
        (threadUnblock_lists _ _).1
      rw [hv]
      exact .wake (view_eq hq) hk (by simp [Thread.core, hb])
    · cases h

theorem boot_view {c : Core} (h : boot.view p = some c) :
    p = 0 ∧ c = ⟨1, none, false, .user, false⟩ ∨ p = 1 ∧ c = ⟨2, none, false, .asleep .user, true⟩ := by
  obtain ⟨t, ht, rfl⟩ := Option.map_eq_some_iff.1 h
  simp only [boot] at ht
  split_ifs at ht with h0 h1
  · cases ht; exact .inl ⟨h0, rfl⟩
  · cases ht; exact .inr ⟨h1, rfl⟩

theorem boot_waitInv : WaitInv boot := by
  refine ⟨⟨?_, ?_, ?_, ?_, ?_, ?_, ?_, ?_⟩, ?_, rfl⟩
  · intro p c h; rcases boot_view h with ⟨-, rfl⟩ | ⟨-, rfl⟩ <;> simp
  · intro p c k h hk; rcases boot_view h with ⟨-, rfl⟩ | ⟨-, rfl⟩ <;> simp_all
  · intro p c pid st h hk; rcases boot_view h with ⟨-, rfl⟩ | ⟨-, rfl⟩ <;> simp [Pc.Holds] at hk
  · intro p c pid st d h hk; rcases boot_view h with ⟨-, rfl⟩ | ⟨-, rfl⟩ <;> simp at hk
  · intro p c pid st d h hk; rcases boot_view h with ⟨-, rfl⟩ | ⟨-, rfl⟩ <;> simp at hk
  · intro p c pid st h hk; rcases boot_view h with ⟨-, rfl⟩ | ⟨-, rfl⟩ <;> simp at hk
  · intro p c q h hk; rcases boot_view h with ⟨-, rfl⟩ | ⟨-, rfl⟩ <;> simp at hk
  · intro p c h hw; rcases boot_view h with ⟨-, rfl⟩ | ⟨-, rfl⟩ <;> simp at hw
  · intro p c h _; rcases boot_view h with ⟨rfl, -⟩ | ⟨rfl, -⟩ <;> simp [boot]

end Threads

/-! ## The handshake -/

open Threads Lib

/-- The handshake works in a state: a parent that is blocked in `process_wait` waits for a
    child that has not finished `thread_exit`; a thread about to call
    `thread_unblock (t->pt)` finds its parent blocked in `process_wait` for it; and no
    assertion has failed. -/
structure HandshakeOk (s : Threads) : Prop where
  blocked : ∀ p t pid st, s.mem p = some t → t.status = .blocked → t.pc = .waitBlocked pid st →
    ∃ c, s.mem st = some c ∧ c.tid = pid ∧ st ∈ s.allList
  unblock : ∀ p t q, s.mem p = some t → t.pc = .exitUnblock q →
    ∃ u, s.mem q = some u ∧ u.status = .blocked ∧ u.pc = .waitBlocked t.tid p
  panicked : s.panicked = false

theorem WaitInv.ok {s : Threads} (h : WaitInv s) : HandshakeOk s := by
  refine ⟨?_, ?_, h.panicked⟩
  · intro p t pid st hp hb hk
    obtain ⟨d, hd, htid, -, -, hne⟩ :=
      h.handshake.blocked p t.core pid st (view_eq hp) hk (by simp [Thread.core, hb])
    obtain ⟨c, hc, rfl⟩ := Option.map_eq_some_iff.1 hd
    exact ⟨c, hc, htid, h.listed st c.core hd hne⟩
  · intro p t q hp hk
    obtain ⟨u, hu, hb, hpc⟩ := h.handshake.unblock p t.core q (view_eq hp) hk
    obtain ⟨v, hv, rfl⟩ := Option.map_eq_some_iff.1 hu
    exact ⟨v, hv, by simpa [Thread.core] using hb, hpc⟩

theorem reaches_waitInv {s : Threads} (h : Reaches step NoRace boot s) : WaitInv s :=
  h.invariant boot_waitInv fun _ _ _ hi hr hs => step_waitInv hi hr hs

/-- **No wake-up is lost and none comes early** in a run without races. -/
theorem handshake_ok {s : Threads} (h : Reaches step NoRace boot s) : HandshakeOk s :=
  (reaches_waitInv h).ok

/-- A parent blocks in `process_wait` and its child goes through `exit`, up to the call of
    `thread_unblock`. -/
def waitTrace : List Label :=
  [.execute 0 true (some 2) (some 0), .wait 0 3, .advance 0, .advance 0, .advance 0, .advance 0,
    .exit 2 81 false, .advance 2]

theorem handshake_ok_run : ∃ s, Reaches step NoRace boot s ∧
    ((s.mem 2).map (·.pc) = some (.exitUnblock 0)) ∧ HandshakeOk s := by
  obtain ⟨s, hs, hp⟩ := reaches_of_run step NoRace boot waitTrace
    (fun s => (s.mem 2).map (·.pc) == some (.exitUnblock 0)) (by decide)
  exact ⟨s, hs, by simpa using hp, handshake_ok hs⟩

/-- The child runs `thread_exit` after its parent has read its flag and before the parent
    sets it: the parent blocks with nobody left to wake it. -/
def lostTrace : List Label :=
  [.execute 0 true (some 2) (some 0), .wait 0 3, .advance 0, .advance 0, .exit 2 81 false, .advance 2,
    .advance 2, .advance 0, .advance 0]

/-- The child runs `thread_exit` after its parent has set its flag and before the parent
    blocks. -/
def earlyTrace : List Label :=
  [.execute 0 true (some 2) (some 0), .wait 0 3, .advance 0, .advance 0, .advance 0, .exit 2 81 false,
    .advance 2, .advance 2]

/-- A parent blocks for a child that has ended, and `thread_unblock` finds a parent that is
    not blocked. -/
theorem handshake_fails :
    (∃ s t pid st, Reaches step anyStep boot s ∧ s.mem 0 = some t ∧ t.status = .blocked ∧
      t.pc = .waitBlocked pid st ∧ s.mem st = none ∧ s.getThreadByPid pid = none) ∧
    (∃ s, Reaches step anyStep boot s ∧ s.panicked = true) := by
  constructor
  · obtain ⟨s, hs, hp⟩ := reaches_of_run step anyStep boot lostTrace
      (fun s => (s.mem 0).any (fun t => t.status == .blocked && t.pc == .waitBlocked 3 2) &&
        ((s.mem 2).isNone && (s.getThreadByPid 3).isNone)) (by decide)
    simp only [Bool.and_eq_true, Option.isNone_iff_eq_none] at hp
    obtain ⟨t, ht, hb⟩ := (Option.any_eq_true _ _).1 hp.1
    simp only [Bool.and_eq_true, beq_iff_eq] at hb
    exact ⟨s, t, 3, 2, hs, ht, hb.1, hb.2, hp.2.1, hp.2.2⟩
  · obtain ⟨s, hs, hp⟩ := reaches_of_run step anyStep boot earlyTrace
      (fun s => s.panicked) (by decide)
    exact ⟨s, hs, hp⟩

end Pintos
