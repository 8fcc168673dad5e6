/-
  What every step of the scheduler keeps.

  The ready list depends on which threads are READY (`Queue`), the list of all threads and the pages that
  were freed on which threads are DYING (`Ledger`).
-/
import Pintos.Sched.Scheduler

namespace Pintos.Sched

open Lib Scheduler Function List

variable {s s' : Scheduler} {p q : Page} {st : ThreadStatus} {n m : ℕ} {d d' : Bool}

namespace Scheduler

/-- The number of a thread and whether it is DYING. -/
def core (s : Scheduler) (p : Page) : Option (ℕ × Bool) := (s.mem p).map fun t => (t.serial, decide (t.status = .dying))

theorem status_setStatus (s : Scheduler) (p q : Page) (st : ThreadStatus) :
    (s.setStatus p st).status q = if q = p then (s.status p).map fun _ => st else s.status q := by
  unfold status setStatus
  dsimp only
  rw [update_apply]
  split_ifs
  · rw [Option.map_map, Option.map_map]
    rfl
  · rfl

theorem status_setStatus_self (h : s.status p ≠ none) : (s.setStatus p st).status p = some st := by
  obtain ⟨st', hst'⟩ := Option.ne_none_iff_exists'.1 h
  rw [status_setStatus, if_pos rfl, hst']
  rfl

theorem status_setStatus_of_ne (h : q ≠ p) : (s.setStatus p st).status q = s.status q := by
  rw [status_setStatus, if_neg h]

theorem core_setStatus (s : Scheduler) (p q : Page) (st : ThreadStatus) :
    (s.setStatus p st).core q = if q = p then (s.core p).map fun c => (c.1, decide (st = .dying)) else s.core q := by
  unfold core setStatus
  dsimp only
  rw [update_apply]
  split_ifs
  · rw [Option.map_map, Option.map_map]
    rfl
  · rfl

theorem core_eq_some : s.core p = some (n, d) ↔ ∃ t, s.mem p = some t ∧ t.serial = n ∧ decide (t.status = .dying) = d := by
  unfold core
  rw [Option.map_eq_some_iff]
  exact exists_congr fun t => and_congr_right fun _ => Prod.mk.injEq _ _ _ _ ▸ Iff.rfl

theorem core_inj {m : ℕ} {d' : Bool} (h : some (n, d) = some (m, d')) : n = m ∧ d = d' := Prod.mk.inj (Option.some.inj h)

theorem core_of_status (h : s.status p = some st) : ∃ n, s.core p = some (n, decide (st = .dying)) := by
  obtain ⟨t, ht, rfl⟩ := Option.map_eq_some_iff.1 h
  exact ⟨t.serial, core_eq_some.2 ⟨t, ht, rfl, rfl⟩⟩

theorem status_of_core (h : s.core p = some (n, d)) : ∃ st, s.status p = some st ∧ decide (st = .dying) = d := by
  obtain ⟨t, ht, -, rfl⟩ := core_eq_some.1 h
  exact ⟨t.status, by unfold status; rw [ht]; rfl, rfl⟩

theorem core_setStatus_alive (h : s.core p = some (n, false)) (hst : st ≠ .dying) (q : Page) :
    (s.setStatus p st).core q = s.core q := by
  rw [core_setStatus]
  split_ifs with e
  · rw [e, h, decide_eq_false hst]
    rfl
  · rfl

end Scheduler

/-! ## The ready list -/

structure Queue (s : Scheduler) : Prop where
  nodup : s.readyList.Nodup
  mem_iff : ∀ p, p ∈ s.readyList ↔ s.status p = some .ready ∧ p ≠ s.idleThread
  order : s.readyList.Pairwise (s.readyAt · < s.readyAt ·)
  before : ∀ p ∈ s.readyList, s.readyAt p < s.time

namespace Queue

theorem congr (h : Queue s) (hl : s'.readyList = s.readyList) (hi : s'.idleThread = s.idleThread) (ht : s'.time = s.time)
    (hr : s'.readyAt = s.readyAt) (hs : ∀ p, p ≠ s.idleThread → (s'.status p = some .ready ↔ s.status p = some .ready)) :
    Queue s' where
  nodup := hl ▸ h.nodup
  mem_iff p := by
    rw [hl, hi, h.mem_iff]
    exact and_congr_left fun hp => (hs p hp).symm
  order := by
    rw [hl, hr]
    exact h.order
  before := by
    rw [hl, hr, ht]
    exact h.before

theorem setStatus (h : Queue s) (hp : s.status p ≠ some .ready) (hst : st ≠ .ready) : Queue (s.setStatus p st) := by
  refine h.congr rfl rfl rfl rfl fun q _ => ?_
  rw [status_setStatus]
  split_ifs with e
  · rw [e]
    refine ⟨fun hq => ?_, fun hq => absurd hq hp⟩
    obtain ⟨_, -, rfl⟩ := Option.map_eq_some_iff.1 hq
    exact absurd rfl hst
  · exact Iff.rfl

theorem setStatus_idle (h : Queue s) (st : ThreadStatus) : Queue (s.setStatus s.idleThread st) :=
  h.congr rfl rfl rfl rfl fun _ hq => by rw [status_setStatus_of_ne hq]

theorem push (h : Queue s) (hp : s.status p ≠ none) (hr : s.status p ≠ some .ready) (hi : p ≠ s.idleThread) :
    Queue ((s.pushReady p).setStatus p .ready) := by
  have hnot : p ∉ s.readyList := fun hmem => hr ((h.mem_iff p).1 hmem).1
  have hne : ∀ q ∈ s.readyList, q ≠ p := by
    rintro q hq rfl
    exact hnot hq
  refine ⟨?_, fun q => ?_, ?_, fun q hq => ?_⟩
  · exact (nodup_append_comm).2 (nodup_cons.2 ⟨hnot, h.nodup⟩)
  · change q ∈ s.readyList ++ [p] ↔ _ ∧ q ≠ s.idleThread
    rw [mem_append, mem_singleton, h.mem_iff]
    by_cases e : q = p
    · subst e
      rw [status_setStatus_self (s := s.pushReady q) hp]
      exact ⟨fun _ => ⟨rfl, hi⟩, fun _ => .inr rfl⟩
    · rw [status_setStatus_of_ne e]
      exact or_iff_left e
  · change (s.readyList ++ [p]).Pairwise (update s.readyAt p s.time · < update s.readyAt p s.time ·)
    refine pairwise_append.2 ⟨h.order.imp_of_mem fun ha hb hab => ?_, pairwise_singleton .., fun a ha b hb => ?_⟩
    · rwa [update_of_ne (hne _ ha), update_of_ne (hne _ hb)]
    · rw [mem_singleton.1 hb, update_self, update_of_ne (hne a ha)]
      exact h.before a ha
  · change update s.readyAt p s.time q < s.time + 1
    rcases mem_append.1 hq with hq | hq
    · rw [update_of_ne (hne q hq)]
      exact Nat.lt_succ_of_lt (h.before q hq)
    · rw [mem_singleton.1 hq, update_self]
      exact Nat.lt_succ_self _

theorem next (h : Queue s) : Queue (s.nextThreadToRun.2.setStatus s.nextThreadToRun.1 .running) := by
  unfold nextThreadToRun
  cases hl : s.readyList with
  | nil => exact h.setStatus_idle .running
  | cons p l =>
    have hnodup := h.nodup
    have horder := h.order
    rw [hl] at hnodup horder
    have hmem : ∀ q, q ∈ s.readyList ↔ q = p ∨ q ∈ l := fun q => by rw [hl, mem_cons]
    refine ⟨(nodup_cons.1 hnodup).2, fun q => ?_, (pairwise_cons.1 horder).2, fun q hq =>
      h.before q ((hmem q).2 (.inr hq))⟩
    rw [status_setStatus]
    split_ifs with e
    · rw [e]
      refine ⟨fun hq => absurd hq (nodup_cons.1 hnodup).1, fun hq => ?_⟩
      obtain ⟨_, -, heq⟩ := Option.map_eq_some_iff.1 hq.1
      cases heq
    · exact ⟨fun hq => (h.mem_iff q).1 ((hmem q).2 (.inr hq)), fun hq => ((hmem q).1 ((h.mem_iff q).2 hq)).resolve_left e⟩

end Queue

/-! ## All threads -/

structure Ledger (s : Scheduler) : Prop where
  idle : ∃ n, s.core s.idleThread = some (n, false)
  initial : ∃ d, s.core s.initialThread = some (0, d)
  all_nodup : s.allList.Nodup
  all_iff : ∀ p, p ∈ s.allList ↔ ∃ n, s.core p = some (n, false)
  serial_lt : ∀ {p n d}, s.core p = some (n, d) → n < s.created
  serial_inj : ∀ {p q n d d'}, s.core p = some (n, d) → s.core q = some (n, d') → p = q
  exited : ∀ n, n ∈ s.exited ↔ n < s.created ∧ ∀ p d, s.core p = some (n, d) → d = true
  freed_nodup : (s.frees.map (·.serial)).Nodup
  freed_iff : ∀ n, n ∈ s.frees.map (·.serial) ↔ n < s.created ∧ ∀ p d, s.core p ≠ some (n, d)
  freed_dying : ∀ f ∈ s.frees, f.status = .dying ∧ f.current ≠ f.page

namespace Ledger

theorem congr (h : Ledger s) (hi : s'.idleThread = s.idleThread) (hm : s'.initialThread = s.initialThread)
    (ha : s'.allList = s.allList) (hc : s'.created = s.created) (he : s'.exited = s.exited) (hf : s'.frees = s.frees)
    (hcore : ∀ p, s'.core p = s.core p) : Ledger s' := by
  have hcore' : s'.core = s.core := funext hcore
  obtain ⟨h1, h2, h3, h4, h5, h6, h7, h8, h9, h10⟩ := h
  constructor <;> simpa only [hi, hm, ha, hc, he, hf, hcore']

theorem setStatus (h : Ledger s) (hp : s.core p = some (n, false)) (hst : st ≠ .dying) : Ledger (s.setStatus p st) :=
  h.congr rfl rfl rfl rfl rfl rfl (core_setStatus_alive hp hst)

theorem exit (h : Ledger s) (hp : s.core p = some (n, false)) (hi : p ≠ s.idleThread) : Ledger
    ({ s with allList := s.allList.erase p, exited := n :: s.exited }.setStatus p .dying) := by
  let t : Scheduler := { s with allList := s.allList.erase p, exited := n :: s.exited }.setStatus p .dying
  have hcore : ∀ q, t.core q = if q = p then some (n, true) else s.core q := fun q => by
    rw [core_setStatus]
    change (if q = p then (s.core p).map _ else s.core q) = _
    rw [hp]
    rfl
  have hserial : ∀ {q m d}, t.core q = some (m, d) → ∃ d', s.core q = some (m, d') := by
    intro q m d hq
    rw [hcore] at hq
    split_ifs at hq with e
    · obtain ⟨rfl, rfl⟩ := core_inj hq
      exact ⟨false, e ▸ hp⟩
    · exact ⟨d, hq⟩
  refine ⟨?_, ?_, h.all_nodup.erase _, fun q => ?_, fun hq => ?_, fun hq hq' => ?_, fun m => ?_, h.freed_nodup, fun m => ?_,
    h.freed_dying⟩
  · change ∃ m, t.core s.idleThread = some (m, false)
    rw [hcore, if_neg hi.symm]
    exact h.idle
  · change ∃ d, t.core s.initialThread = some (0, d)
    obtain ⟨d, hd⟩ := h.initial
    rw [hcore]
    split_ifs with e
    · rw [e, hp] at hd
      exact ⟨true, by rw [(core_inj hd).1]⟩
    · exact ⟨d, hd⟩
  · change q ∈ s.allList.erase p ↔ ∃ m, t.core q = some (m, false)
    rw [h.all_nodup.mem_erase_iff, h.all_iff, hcore]
    split_ifs with e
    · exact ⟨fun hq => absurd e hq.1, by rintro ⟨m, hm⟩; cases hm⟩
    · exact and_iff_right e
  · obtain ⟨d', hq⟩ := hserial hq
    exact h.serial_lt hq
  · obtain ⟨_, hq⟩ := hserial hq
    obtain ⟨_, hq'⟩ := hserial hq'
    exact h.serial_inj hq hq'
  · change m ∈ n :: s.exited ↔ m < s.created ∧ ∀ q d, t.core q = some (m, d) → d = true
    rw [mem_cons, h.exited]
    constructor
    · rintro (rfl | ⟨hlt, hm⟩)
      · refine ⟨h.serial_lt hp, fun q d hq => ?_⟩
        obtain ⟨d', hq'⟩ := hserial hq
        rw [h.serial_inj hq' hp, hcore, if_pos rfl] at hq
        exact (core_inj hq).2.symm
      · refine ⟨hlt, fun q d hq => ?_⟩
        rw [hcore] at hq
        split_ifs at hq with e
        · exact (core_inj hq).2.symm
        · exact hm q d hq
    · rintro ⟨hlt, hm⟩
      by_cases e : m = n
      · exact .inl e
      · refine .inr ⟨hlt, fun q d hq => hm q d ?_⟩
        rw [hcore, if_neg]
        · exact hq
        · rintro rfl
          rw [hp] at hq
          exact e (core_inj hq).1.symm
  · change m ∈ s.frees.map (·.serial) ↔ m < s.created ∧ ∀ q d, t.core q ≠ some (m, d)
    rw [h.freed_iff]
    refine and_congr_right fun _ => ⟨fun hm q d hq => ?_, fun hm q d hq => ?_⟩
    · obtain ⟨d', hq⟩ := hserial hq
      exact hm q d' hq
    · by_cases e : q = p
      · rw [e, hp] at hq
        exact hm p true (by rw [hcore, if_pos rfl, (core_inj hq).1])
      · exact hm q d (by rw [hcore, if_neg e, hq])

theorem free (h : Ledger s) (hp : s.core p = some (n, true)) (hi : p ≠ s.initialThread) (hc : p ≠ s.current) :
    Ledger (s.freePage p) := by
  obtain ⟨t, ht, rfl, hst⟩ := core_eq_some.1 hp
  have hfree : s.freePage p = { s with
      mem := update s.mem p none, frees := ⟨t.serial, p, t.status, s.current⟩ :: s.frees } := by
    unfold freePage
    rw [ht]
  have hcore : ∀ q, (s.freePage p).core q = if q = p then none else s.core q := fun q => by
    rw [hfree]
    unfold core
    dsimp only
    rw [update_apply]
    split_ifs <;> rfl
  have hserial : ∀ {q m d}, (s.freePage p).core q = some (m, d) ↔ q ≠ p ∧ s.core q = some (m, d) := by
    intro q m d
    rw [hcore]
    split_ifs with e
    · exact ⟨nofun, fun hq => absurd e hq.1⟩
    · exact (and_iff_right e).symm
  have hlt := h.serial_lt hp
  have hnot : t.serial ∉ s.frees.map (·.serial) := fun hmem => ((h.freed_iff _).1 hmem).2 p true hp
  rw [hfree] at hserial ⊢
  refine ⟨?_, ?_, h.all_nodup, fun q => ?_, fun hq => h.serial_lt (hserial.1 hq).2,
    fun hq hq' => h.serial_inj (hserial.1 hq).2 (hserial.1 hq').2, fun m => ?_, nodup_cons.2 ⟨hnot, h.freed_nodup⟩,
    fun m => ?_, fun f hf => ?_⟩
  · obtain ⟨m, hm⟩ := h.idle
    refine ⟨m, hserial.2 ⟨fun e => ?_, hm⟩⟩
    rw [show s.idleThread = p from e, hp] at hm
    cases hm
  · obtain ⟨d, hd⟩ := h.initial
    exact ⟨d, hserial.2 ⟨hi.symm, hd⟩⟩
  · rw [h.all_iff]
    refine exists_congr fun m => ⟨fun hq => hserial.2 ⟨?_, hq⟩, fun hq => (hserial.1 hq).2⟩
    rintro rfl
    rw [hp] at hq
    cases hq
  · rw [h.exited]
    refine and_congr_right fun _ => ⟨fun hm q d hq => hm q d (hserial.1 hq).2, fun hm q d hq => ?_⟩
    by_cases e : q = p
    · rw [e, hp] at hq
      exact (core_inj hq).2.symm
    · exact hm q d (hserial.2 ⟨e, hq⟩)
  · rw [map_cons, mem_cons, h.freed_iff]
    constructor
    · rintro (rfl | ⟨hm, hnone⟩)
      · exact ⟨hlt, fun q d hq => (hserial.1 hq).1 (h.serial_inj (hserial.1 hq).2 hp)⟩
      · exact ⟨hm, fun q d hq => hnone q d (hserial.1 hq).2⟩
    · rintro ⟨hm, hnone⟩
      by_cases e : m = t.serial
      · exact .inl e
      · refine .inr ⟨hm, fun q d hq => hnone q d (hserial.2 ⟨?_, hq⟩)⟩
        rintro rfl
        rw [hp] at hq
        exact e (core_inj hq).1.symm
  · rcases mem_cons.1 hf with rfl | hf
    · exact ⟨of_decide_eq_true hst, hc.symm⟩
    · exact h.freed_dying f hf

theorem init (h : Ledger s) (hp : s.mem p = none) : Ledger (s.initThread p) := by
  have hnone : s.core p = none := by
    unfold core
    rw [hp]
    rfl
  have hcore : ∀ q, (s.initThread p).core q = if q = p then some (s.created, false) else s.core q := fun q => by
    unfold core initThread
    dsimp only
    rw [update_apply]
    split_ifs <;> rfl
  have hserial : ∀ {q m d}, (s.initThread p).core q = some (m, d) ↔ q = p ∧ m = s.created ∧ d = false ∨ s.core q = some (m, d) := by
    intro q m d
    rw [hcore]
    split_ifs with e
    · rw [e, hnone]
      constructor
      · rintro hq
        obtain ⟨rfl, rfl⟩ := core_inj hq
        exact .inl ⟨rfl, rfl, rfl⟩
      · rintro (⟨-, rfl, rfl⟩ | hq)
        · rfl
        · cases hq
    · exact ⟨.inr, fun hq => hq.resolve_left fun hq => e hq.1⟩
  have hlt : ∀ {q m d}, s.core q = some (m, d) → m ≠ s.created := fun hq => (h.serial_lt hq).ne
  -- a serial number in use is that of a thread of which `P` holds, and the new thread is none of them
  have hnew : ∀ {P : Bool → Prop}, ¬ P false → ∀ m, (m < s.created ∧ ∀ q d, s.core q = some (m, d) → P d) ↔
      m < s.created + 1 ∧ ∀ q d, (s.initThread p).core q = some (m, d) → P d := by
    intro P hP m
    constructor
    · rintro ⟨hm, hall⟩
      refine ⟨Nat.lt_succ_of_lt hm, fun q d hq => ?_⟩
      rcases hserial.1 hq with ⟨-, e, -⟩ | hq
      · exact absurd e hm.ne
      · exact hall q d hq
    · rintro ⟨hm, hall⟩
      refine ⟨lt_of_le_of_ne (Nat.lt_succ_iff.1 hm) ?_, fun q d hq => hall q d (hserial.2 (.inr hq))⟩
      rintro rfl
      exact hP (hall p false (hserial.2 (.inl ⟨rfl, rfl, rfl⟩)))
  refine ⟨?_, ?_, ?_, fun q => ?_, fun {q m d} hq => ?_, fun {q q' m d d'} hq hq' => ?_, fun m => ?_, h.freed_nodup, fun m => ?_,
    h.freed_dying⟩
  · obtain ⟨m, hm⟩ := h.idle
    exact ⟨m, hserial.2 (.inr hm)⟩
  · obtain ⟨d, hd⟩ := h.initial
    exact ⟨d, hserial.2 (.inr hd)⟩
  · refine nodup_append_comm.2 (nodup_cons.2 ⟨fun hmem => ?_, h.all_nodup⟩)
    obtain ⟨m, hm⟩ := (h.all_iff p).1 hmem
    rw [hnone] at hm
    cases hm
  · change q ∈ s.allList ++ [p] ↔ _
    rw [mem_append, mem_singleton, h.all_iff]
    constructor
    · rintro (⟨m, hm⟩ | rfl)
      · exact ⟨m, hserial.2 (.inr hm)⟩
      · exact ⟨s.created, hserial.2 (.inl ⟨rfl, rfl, rfl⟩)⟩
    · rintro ⟨m, hm⟩
      rcases hserial.1 hm with ⟨e, -⟩ | hm
      · exact .inr e
      · exact .inl ⟨m, hm⟩
  · change m < s.created + 1
    rcases hserial.1 hq with ⟨-, rfl, -⟩ | hq
    · exact Nat.lt_succ_self _
    · exact Nat.lt_succ_of_lt (h.serial_lt hq)
  · rcases hserial.1 hq with ⟨rfl, hm, -⟩ | hq
    · rcases hserial.1 hq' with ⟨rfl, -⟩ | hq'
      · rfl
      · exact absurd hm (hlt hq')
    · rcases hserial.1 hq' with ⟨-, hm, -⟩ | hq'
      · exact absurd hm (hlt hq)
      · exact h.serial_inj hq hq'
  · exact (h.exited m).trans (hnew (P := (· = true)) nofun m)
  · exact (h.freed_iff m).trans (hnew (P := fun _ => False) id m)

end Ledger

/-! ## Switching -/

structure SchedInv (s : Scheduler) : Prop where
  queue : Queue s
  ledger : Ledger s
  running_iff : ∀ p, s.status p = some .running ↔ p = s.current
  dying : ∀ p, s.status p = some .dying → p = s.initialThread
  asserts : s.failed = false

structure AtSwitch (s : Scheduler) : Prop where
  queue : Queue s
  ledger : Ledger s
  quiet : ∀ p, s.status p ≠ some .running
  current : s.status s.current ≠ none
  dying : ∀ p, s.status p = some .dying → p = s.current ∨ p = s.initialThread
  asserts : s.failed = false

theorem assert_of {q : Prop} [Decidable q] (h : q) : s.assert q = s := by
  unfold Scheduler.assert
  rw [decide_eq_false (not_not.2 h), Bool.or_false]

theorem nextThreadToRun_eq (s : Scheduler) :
    s.nextThreadToRun = (s.readyList.headD s.idleThread, { s with readyList := s.readyList.tail }) := by
  obtain ⟨mem, allList, readyList⟩ := s
  cases readyList <;> rfl

namespace AtSwitch

theorem next_alive (h : AtSwitch s) : ∃ n, s.core (s.readyList.headD s.idleThread) = some (n, false) := by
  cases hl : s.readyList with
  | nil => exact h.ledger.idle
  | cons p l =>
    have hp := ((h.queue.mem_iff p).1 (by rw [hl]; exact mem_cons_self)).1
    exact core_of_status hp

end AtSwitch

/-- The next thread is RUNNING. -/
def Scheduler.dispatched (s : Scheduler) : Scheduler :=
  { { s with readyList := s.readyList.tail, current := s.readyList.headD s.idleThread }.setStatus
      (s.readyList.headD s.idleThread) .running with threadTicks := 0 }

namespace AtSwitch

theorem schedule_eq (h : AtSwitch s) : s.schedule =
    if s.dispatched.status s.current = some .dying ∧ s.current ≠ s.initialThread then s.dispatched.freePage s.current
    else s.dispatched := by
  obtain ⟨n, hn⟩ := h.next_alive
  obtain ⟨t, ht, -, -⟩ := core_eq_some.1 hn
  have hrun : s.dispatched.status (s.readyList.headD s.idleThread) = some .running := by
    refine status_setStatus_self ?_
    unfold status
    rw [ht]
    nofun
  have hquiet : ({ s with readyList := s.readyList.tail } : Scheduler).assert
      (({ s with readyList := s.readyList.tail } : Scheduler).status s.current ≠ some .running) = _ := assert_of (h.quiet s.current)
  have hthread : ({ s with readyList := s.readyList.tail } : Scheduler).assert
      (s.mem (s.readyList.headD s.idleThread)).isSome = _ := assert_of (by rw [ht]; rfl)
  unfold schedule
  rw [nextThreadToRun_eq]
  dsimp only
  rw [hquiet, hthread]
  by_cases e : s.current = s.readyList.headD s.idleThread
  · rw [if_neg (not_not.2 e), if_neg]
    · unfold threadScheduleTail dispatched
      rw [← e]
    · rintro ⟨hdying, -⟩
      rw [e, hrun] at hdying
      cases hdying
  · rw [if_pos e]
    unfold threadScheduleTail
    change (if s.dispatched.status s.current = some .dying ∧ s.current ≠ s.initialThread then
      (s.dispatched.assert (s.current ≠ s.readyList.headD s.idleThread)).freePage s.current else s.dispatched) = _
    rw [assert_of e]

theorem dispatched (h : AtSwitch s) : Queue s.dispatched ∧ Ledger s.dispatched ∧
    (∀ p, s.dispatched.status p = some .running ↔ p = s.readyList.headD s.idleThread) ∧
    ∀ p, s.dispatched.status p = some .dying → s.status p = some .dying := by
  obtain ⟨n, hn⟩ := h.next_alive
  have hqueue := h.queue.next
  rw [nextThreadToRun_eq] at hqueue
  have hstatus : ∀ p, s.dispatched.status p = if p = s.readyList.headD s.idleThread then some .running else s.status p := by
    intro p
    obtain ⟨st, hst, -⟩ := status_of_core hn
    have := status_setStatus s (s.readyList.headD s.idleThread) p .running
    rwa [hst] at this
  refine ⟨hqueue.congr rfl rfl rfl rfl fun p _ => Iff.rfl, ?_, fun p => ?_, fun p => ?_⟩
  · exact h.ledger.congr rfl rfl rfl rfl rfl rfl (core_setStatus_alive hn nofun)
  · rw [hstatus]
    split_ifs with e
    · exact ⟨fun _ => e, fun _ => rfl⟩
    · exact ⟨fun hp => absurd hp (h.quiet p), fun hp => absurd hp e⟩
  · rw [hstatus]
    split_ifs with e
    · nofun
    · exact id

theorem schedule (h : AtSwitch s) : SchedInv s.schedule := by
  obtain ⟨hqueue, hledger, hrunning, hdying⟩ := h.dispatched
  rw [h.schedule_eq]
  split_ifs with hd
  · obtain ⟨hd, hi⟩ := hd
    obtain ⟨n, hn⟩ := core_of_status hd
    have hc : s.current ≠ s.readyList.headD s.idleThread := fun e => by
      rw [(hrunning s.current).2 e] at hd
      cases hd
    have hfree := hledger.free hn hi hc
    obtain ⟨t, ht, -⟩ := core_eq_some.1 hn
    have hstatus : ∀ p, (s.dispatched.freePage s.current).status p = if p = s.current then none else s.dispatched.status p := by
      intro p
      unfold freePage status
      rw [ht]
      dsimp only
      rw [update_apply]
      split_ifs <;> rfl
    have heq : s.dispatched.freePage s.current = { s.dispatched with
        mem := update s.dispatched.mem s.current none
        frees := ⟨t.serial, s.current, t.status, s.dispatched.current⟩ :: s.dispatched.frees } := by
      unfold freePage
      rw [ht]
    refine ⟨hqueue.congr (by rw [heq]) (by rw [heq]) (by rw [heq]) (by rw [heq]) fun p _ => ?_, hfree, fun p => ?_, fun p => ?_,
      by rw [heq]; exact h.asserts⟩
    · rw [hstatus]
      split_ifs with e
      · rw [e, hd]
        exact ⟨nofun, nofun⟩
      · exact Iff.rfl
    · rw [hstatus, heq]
      split_ifs with e
      · exact ⟨nofun, fun e' => absurd (e.symm.trans e') hc⟩
      · exact hrunning p
    · rw [hstatus, heq]
      split_ifs with e
      · nofun
      · exact fun hp => (h.dying p (hdying p hp)).resolve_left e
  · refine ⟨hqueue, hledger, hrunning, fun p hp => ?_, h.asserts⟩
    rcases h.dying p (hdying p hp) with e | e
    · by_contra hi
      exact hd ⟨e ▸ hp, fun e' => hi (e.trans e')⟩
    · exact e

end AtSwitch

/-! ## Steps -/

namespace SchedInv

section

variable (h : SchedInv s)
include h

theorem current : s.status s.current = some .running := (h.running_iff _).2 rfl

theorem current_alive : ∃ n, s.core s.current = some (n, false) := core_of_status h.current

theorem leave (hq : Queue (s'.setStatus s.current st)) (hs : st ≠ .running ∧ st ≠ .dying)
    (hm : s'.mem = s.mem) (hc : s'.current = s.current) (hi : s'.initialThread = s.initialThread) (hl : Ledger s')
    (ha : s'.failed = false) : AtSwitch (s'.setStatus s.current st) := by
  obtain ⟨n, hn⟩ := h.current_alive
  have hstatus : ∀ p, s'.status p = s.status p := fun p => by
    unfold status
    rw [hm]
  have hcore : s'.core s.current = some (n, false) := by
    unfold core
    rwa [hm]
  have hcur : s'.status s.current ≠ none := by
    rw [hstatus, h.current]
    nofun
  refine ⟨hq, hl.setStatus hcore hs.2, fun p => ?_, ?_, fun p hp => ?_, ha⟩
  · by_cases e : p = s.current
    · rw [e, status_setStatus_self hcur]
      exact fun he => hs.1 (Option.some.inj he)
    · rw [status_setStatus_of_ne e, hstatus]
      exact fun he => e ((h.running_iff p).1 he)
  · change (s'.setStatus s.current st).status s'.current ≠ none
    rw [hc, status_setStatus_self hcur]
    nofun
  · by_cases e : p = s.current
    · exact .inl (e.trans hc.symm)
    · rw [status_setStatus_of_ne e, hstatus] at hp
      exact .inr ((h.dying p hp).trans hi.symm)

theorem block : SchedInv s.threadBlock := by
  have hqueue : Queue (s.setStatus s.current .blocked) := h.queue.setStatus (by rw [h.current]; nofun) nofun
  exact (h.leave hqueue ⟨nofun, nofun⟩ rfl rfl rfl h.ledger h.asserts).schedule

theorem yield : SchedInv s.threadYield := by
  unfold threadYield
  split_ifs with hi
  · exact (h.leave (h.queue.push (by rw [h.current]; nofun) (by rw [h.current]; nofun) hi) ⟨nofun, nofun⟩ rfl rfl rfl
      (h.ledger.congr rfl rfl rfl rfl rfl rfl fun _ => rfl) h.asserts).schedule
  · rw [not_not] at hi
    have hqueue : Queue (s.setStatus s.current .ready) := by
      rw [hi]
      exact h.queue.setStatus_idle .ready
    exact (h.leave hqueue ⟨nofun, nofun⟩ rfl rfl rfl h.ledger h.asserts).schedule

theorem tick : SchedInv s.threadTick := by
  have h' : SchedInv { s with threadTicks := s.threadTicks + 1 } :=
    ⟨h.queue.congr rfl rfl rfl rfl fun _ _ => Iff.rfl, h.ledger.congr rfl rfl rfl rfl rfl rfl fun _ => rfl, h.running_iff, h.dying,
      h.asserts⟩
  unfold threadTick
  dsimp only
  split_ifs
  · exact h'.yield
  · exact h'

theorem exit (hi : s.current ≠ s.idleThread) : SchedInv s.threadExit := by
  obtain ⟨n, hn⟩ := h.current_alive
  obtain ⟨t, ht, rfl, -⟩ := core_eq_some.1 hn
  have hledger := h.ledger.exit hn hi
  unfold threadExit
  rw [ht]
  refine AtSwitch.schedule
    ⟨?_, hledger, fun p => ?_, ?_, fun p hp => ?_, h.asserts⟩
  · exact Queue.setStatus (h.queue.congr rfl rfl rfl rfl fun _ _ => Iff.rfl) (by
      change s.status s.current ≠ _
      rw [h.current]
      nofun) nofun
  · rw [status_setStatus]
    change (if p = s.current then (s.status s.current).map _ else s.status p) ≠ _
    split_ifs with e
    · rw [h.current]
      nofun
    · exact fun hp => e ((h.running_iff p).1 hp)
  · change (Scheduler.setStatus _ s.current .dying).status s.current ≠ none
    rw [status_setStatus, if_pos rfl]
    change (s.status s.current).map _ ≠ none
    rw [h.current]
    nofun
  · by_cases e : p = s.current
    · exact .inl e
    · rw [status_setStatus_of_ne e] at hp
      exact .inr (h.dying p hp)

theorem unblock (hp : s.status p = some .blocked) (hi : p ≠ s.idleThread) : SchedInv (s.threadUnblock p) := by
  obtain ⟨n, hn⟩ := core_of_status hp
  have hledger : Ledger (s.pushReady p) := h.ledger.congr rfl rfl rfl rfl rfl rfl fun _ => rfl
  refine ⟨h.queue.push (by rw [hp]; nofun) (by rw [hp]; nofun) hi, hledger.setStatus hn nofun, fun q => ?_, fun q => ?_, h.asserts⟩
  · refine Iff.trans ?_ (h.running_iff q)
    unfold threadUnblock
    by_cases e : q = p
    · rw [e, status_setStatus_self (s := s.pushReady p) (show s.status p ≠ none by rw [hp]; nofun), hp]
      exact ⟨nofun, nofun⟩
    · rw [status_setStatus_of_ne e]
      exact Iff.rfl
  · unfold threadUnblock
    by_cases e : q = p
    · rw [e, status_setStatus_self (s := s.pushReady p) (show s.status p ≠ none by rw [hp]; nofun)]
      nofun
    · rw [status_setStatus_of_ne e]
      exact h.dying q

end

theorem create {page : Option Page} (h : SchedInv s) (hp : ∀ p ∈ page, s.mem p = none) : SchedInv (s.threadCreate page) := by
  cases page with
  | none => exact h
  | some p =>
    have hmem := hp p rfl
    have hnone : s.status p = none := by
      unfold status
      rw [hmem]
      rfl
    have hstatus : ∀ q, (s.initThread p).status q = if q = p then some .blocked else s.status q := fun q => by
      unfold status initThread
      dsimp only
      rw [update_apply]
      split_ifs <;> rfl
    have hidle : p ≠ s.idleThread := by
      rintro rfl
      obtain ⟨n, hn⟩ := h.ledger.idle
      obtain ⟨t, ht, -⟩ := core_eq_some.1 hn
      rw [hmem] at ht
      cases ht
    have hother : ∀ q st, st ≠ .blocked → ((s.initThread p).status q = some st ↔ s.status q = some st) := by
      intro q st hst
      rw [hstatus]
      split_ifs with e
      · rw [e, hnone]
        exact ⟨fun he => absurd (Option.some.inj he).symm hst, nofun⟩
      · exact Iff.rfl
    have hinit : SchedInv (s.initThread p) :=
      ⟨h.queue.congr rfl rfl rfl rfl fun q _ => hother q .ready nofun, h.ledger.init hmem,
        fun q => (hother q .running nofun).trans (h.running_iff q), fun q hq => h.dying q ((hother q .dying nofun).1 hq), h.asserts⟩
    exact hinit.unblock (by rw [hstatus, if_pos rfl]) hidle

end SchedInv

theorem step_schedInv {c : Call} (h : SchedInv s) (hok : s.SparesIdle c) (hstep : s.step c = some s') : SchedInv s' := by
  cases c with
  | create page =>
    simp only [step] at hstep
    split_ifs at hstep with hp
    cases hstep
    exact h.create hp
  | block =>
    cases hstep
    exact h.block
  | unblock t =>
    simp only [step] at hstep
    split_ifs at hstep with ht
    cases hstep
    exact h.unblock ht fun e => hok (e ▸ rfl)
  | yield =>
    cases hstep
    exact h.yield
  | tick =>
    cases hstep
    exact h.tick
  | exit =>
    simp only [step] at hstep
    split_ifs at hstep with hi
    cases hstep
    exact h.exit hi

theorem start_schedInv {initial idle : Page} (hne : initial ≠ idle) (preempted : Bool) (ticks : ℕ) :
    SchedInv (start initial idle preempted ticks) := by
  have hmem : ∀ p, (start initial idle preempted ticks).mem p = if p = initial then some ⟨.running, 0⟩
    else if p = idle then some ⟨if preempted then .ready else .blocked, 1⟩ else none := fun _ => rfl
  have hcore : ∀ p, (start initial idle preempted ticks).core p =
      if p = initial then some (0, false) else if p = idle then some (1, false) else none := fun p => by
    unfold core
    rw [hmem]
    split_ifs <;> rfl
  have hcases : ∀ {p n d}, (start initial idle preempted ticks).core p = some (n, d) ↔
      (p = initial ∧ n = 0 ∨ p = idle ∧ n = 1) ∧ d = false := by
    intro p n d
    rw [hcore]
    split_ifs with e e'
    · simp [e, hne, eq_comm]
    · simp [e', hne.symm, eq_comm]
    · simp [e, e']
  obtain ⟨st, hst, hrun, hdying⟩ : ∃ st, (if preempted then ThreadStatus.ready else .blocked) = st ∧ st ≠ .running ∧ st ≠ .dying := by
    cases preempted
    · exact ⟨.blocked, rfl, nofun, nofun⟩
    · exact ⟨.ready, rfl, nofun, nofun⟩
  have hstatus : ∀ p, (start initial idle preempted ticks).status p =
      if p = initial then some .running else if p = idle then some st else none := fun p => by
    unfold status
    rw [hmem, hst]
    split_ifs <;> rfl
  refine ⟨⟨nodup_nil, fun p => ?_, List.Pairwise.nil, nofun⟩, ⟨⟨1, hcases.2 ⟨.inr ⟨rfl, rfl⟩, rfl⟩⟩,
    ⟨false, hcases.2 ⟨.inl ⟨rfl, rfl⟩, rfl⟩⟩, ?_, fun p => ?_, fun {p n d} hp => ?_, fun {p q n d d'} hp hq => ?_, fun n => ?_,
    nodup_nil, fun n => ?_, nofun⟩, fun p => ?_, fun p => ?_, rfl⟩
  · rw [hstatus]
    refine ⟨nofun, fun ⟨hp, hi⟩ => ?_⟩
    split_ifs at hp with e e'
    · cases hp
    · exact absurd e' hi
  · exact nodup_cons.2 ⟨fun hmem => hne (mem_singleton.1 hmem), nodup_singleton _⟩
  · simp only [hcases]
    change p ∈ [initial, idle] ↔ _
    simp only [mem_cons, not_mem_nil, or_false, and_true, exists_or, exists_eq_right]
  · change n < 2
    rcases (hcases.1 hp).1 with ⟨-, rfl⟩ | ⟨-, rfl⟩ <;> decide
  · rcases (hcases.1 hp).1 with ⟨rfl, rfl⟩ | ⟨rfl, rfl⟩ <;> rcases (hcases.1 hq).1 with ⟨rfl, h⟩ | ⟨rfl, h⟩ <;>
      first | rfl | cases h
  · change n ∈ [] ↔ n < 2 ∧ _
    refine ⟨nofun, fun ⟨hlt, hall⟩ => ?_⟩
    interval_cases n
    · exact absurd (hall initial false (hcases.2 ⟨.inl ⟨rfl, rfl⟩, rfl⟩)) nofun
    · exact absurd (hall idle false (hcases.2 ⟨.inr ⟨rfl, rfl⟩, rfl⟩)) nofun
  · change n ∈ [] ↔ n < 2 ∧ _
    refine ⟨nofun, fun ⟨hlt, hall⟩ => ?_⟩
    interval_cases n
    · exact absurd (hcases.2 ⟨.inl ⟨rfl, rfl⟩, rfl⟩) (hall initial false)
    · exact absurd (hcases.2 ⟨.inr ⟨rfl, rfl⟩, rfl⟩) (hall idle false)
  · rw [hstatus]
    split_ifs with e e'
    · exact ⟨fun _ => e, fun _ => rfl⟩
    · exact ⟨fun h => absurd (Option.some.inj h) hrun, fun h => absurd h e⟩
    · exact ⟨nofun, fun h => absurd h e⟩
  · rw [hstatus]
    split_ifs with e e'
    · nofun
    · exact fun h => absurd (Option.some.inj h) hdying
    · nofun

theorem SchedInv.ok (h : SchedInv s) : SchedOk s := by
  have hexited : ∀ {p t}, s.mem p = some t → (t.serial ∈ s.exited ↔ t.status = .dying) := by
    intro p t ht
    have hp : s.core p = some (t.serial, decide (t.status = .dying)) := core_eq_some.2 ⟨t, ht, rfl, rfl⟩
    rw [h.ledger.exited]
    refine ⟨fun he => of_decide_eq_true (he.2 p _ hp), fun hd => ⟨h.ledger.serial_lt hp, fun q d hq => ?_⟩⟩
    rw [h.ledger.serial_inj hq hp, hp, decide_eq_true hd] at hq
    exact (core_inj hq).2.symm
  have hall : ∀ p, p ∈ s.allList ↔ ∃ t, s.mem p = some t ∧ t.serial ∉ s.exited := by
    intro p
    rw [h.ledger.all_iff]
    constructor
    · rintro ⟨n, hn⟩
      obtain ⟨t, ht, -, hd⟩ := core_eq_some.1 hn
      exact ⟨t, ht, fun he => of_decide_eq_false hd ((hexited ht).1 he)⟩
    · rintro ⟨t, ht, he⟩
      exact ⟨t.serial, core_eq_some.2 ⟨t, ht, rfl, decide_eq_false fun hd => he ((hexited ht).2 hd)⟩⟩
  refine ⟨⟨s.current, h.current, fun p hp => (h.running_iff p).1 hp⟩, h.queue.nodup, h.queue.mem_iff, h.queue.order,
    h.ledger.all_nodup, hall, fun n hn he => ?_, h.ledger.freed_nodup, fun n => ?_, h.ledger.freed_dying, fun t ht => ?_, h.asserts⟩
  · rw [h.ledger.exited] at he
    push Not at he
    obtain ⟨p, d, hp, hd⟩ := he hn
    obtain ⟨t, ht, rfl, -⟩ := core_eq_some.1 hp
    exact ⟨p, (h.ledger.all_iff p).2 ⟨t.serial, Bool.eq_false_iff.2 hd ▸ hp⟩, t, ht, rfl⟩
  · rw [h.ledger.freed_iff, h.ledger.exited]
    obtain ⟨d, hd⟩ := h.ledger.initial
    constructor
    · rintro ⟨hn, hall⟩
      refine ⟨⟨hn, fun p d hp => absurd hp (hall p d)⟩, ?_⟩
      rintro rfl
      exact hall _ _ hd
    · rintro ⟨⟨hn, hall⟩, hne⟩
      refine ⟨hn, fun p d' hp => hne ?_⟩
      obtain rfl := hall p d' hp
      obtain ⟨st, hst, hdy⟩ := status_of_core hp
      rw [of_decide_eq_true hdy] at hst
      rw [h.dying p hst, hd] at hp
      exact (core_inj hp).1.symm
  · obtain ⟨d, hd⟩ := h.ledger.initial
    obtain ⟨t', ht', h0, -⟩ := core_eq_some.1 hd
    rw [ht] at ht'
    rw [Option.some.inj ht', h0]

/-- **The scheduler.**  Whatever the threads call, as long as nobody unblocks the idle thread. -/
theorem sched_ok {initial idle : Page} (hne : initial ≠ idle) {preempted : Bool} {ticks : ℕ} {s : Scheduler}
    (h : Reaches step SparesIdle (start initial idle preempted ticks) s) : SchedOk s := by
  have hinv : SchedInv s :=
    h.invariant (start_schedInv hne preempted ticks) fun _ _ _ ih hok hstep => step_schedInv ih hok hstep
  exact hinv.ok

instance (s : Scheduler) (c : Call) : Decidable (s.SparesIdle c) := by
  unfold SparesIdle
  cases c with
  | unblock t => exact decidable_of_iff (t ≠ s.idleThread) ⟨fun h e => h (Call.unblock.inj e), fun h e => h (e ▸ rfl)⟩
  | _ => exact isTrue nofun

/-- A thread is created, preempts the initial one, which exits, and ends too; its page is used again. -/
theorem sched_ok_reused : ∃ s, Reaches step SparesIdle (start 0 1 false 3) s ∧
    (s.current == 1 && s.frees.map (·.serial) == [2] && s.exited == [2, 0] && s.allList == [1, 2]) = true ∧ SchedOk s := by
  obtain ⟨s, hs, hp⟩ := reaches_of_run step SparesIdle (start 0 1 false 3)
    [.create (some 2), .tick, .yield, .exit, .exit, .create (some 2), .yield, .block]
    (fun s => s.current == 1 && s.frees.map (·.serial) == [2] && s.exited == [2, 0] && s.allList == [1, 2]) (by decide +kernel)
  exact ⟨s, hs, hp, sched_ok (by decide) hs⟩

/-- The idle thread can be unblocked, and is on the ready list then. -/
theorem idle_queued : ∃ s, Reaches step anyStep (start 0 1 false 0) s ∧ s.idleThread ∈ s.readyList := by
  obtain ⟨s, hs, hp⟩ := reaches_of_run step anyStep (start 0 1 false 0) [.unblock 1]
    (fun s => decide (s.idleThread ∈ s.readyList)) (by decide)
  exact ⟨s, hs, of_decide_eq_true hp⟩

end Pintos.Sched
