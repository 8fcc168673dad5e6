/-
  The statuses that `process_wait` returns.

  The log of a run says what a wait has to return (`Returns`): the status of a child of the caller that it
  has not waited for, and −1 in every other case.
-/
import Pintos.WaitRace

namespace Pintos

open List Function

/-! ## What a log says -/

/-- The process has terminated. -/
def Ended (L : List Event) (pid : ℤ) : Prop := (∃ v, .exited pid v ∈ L) ∨ .killed pid ∈ L

/-- What the process passed to `exit`, and −1 if it has not called `exit`. -/
def exitStatus : List Event → ℤ → ℤ
  | [], _ => -1
  | .exited q v :: L, pid => if q = pid then v else exitStatus L pid
  | _ :: L, pid => exitStatus L pid

/-- `pid` is a child of `P` that no wait of `P` has returned for. -/
def Owed (L : List Event) (P pid : ℤ) : Prop := .executed P pid ∈ L ∧ ∀ v, .waited P pid v ∉ L

/-- `process_wait (pid)` by `P` may return `v` after the calls `L`. -/
def Returns (L : List Event) (P pid v : ℤ) : Prop :=
  (Owed L P pid → Ended L pid ∧ v = exitStatus L pid) ∧ (¬ Owed L P pid → v = -1)

/-- Every wait in the log returned what it has to. -/
def WaitOk : List Event → Prop
  | [] => True
  | .waited P pid v :: L => Returns L P pid v ∧ WaitOk L
  | _ :: L => WaitOk L

/-! ## The condition -/

def Event.isWait (P pid : ℤ) : Event → Bool
  | .waited P' pid' _ => P' == P && pid' == pid
  | _ => false

/-- The first record of `t` is that of `pid`, for which `t` has not waited. -/
def Own (L : List Event) (t : Thread) (pid : ℤ) : Prop :=
  t.subThreads.head?.map SubThread.pid = some pid ∧ pid ≠ -1 ∧ L.any (Event.isWait t.tid pid) = false

instance (L : List Event) (t : Thread) (pid : ℤ) : Decidable (Own L t pid) :=
  inferInstanceAs (Decidable (_ ∧ _ ∧ _))

/-- All records of `pid` hold −1. -/
def Thread.holdsMinusOne (t : Thread) (pid : ℤ) : Bool :=
  t.subThreads.all fun r => r.pid != pid || r.exitCode == -1

/-- The condition under which the statuses come out right, besides `NoRace`.  Records can be
    allocated and `tid`s do not wrap; a process that ends without `exit` has −1 in its record;
    a process waits for a living child only if it is the first it has executed, and then once;
    and for a process that does not live only if that is its first child, too, or if it has no
    children. -/
def StatusOk (s : Threads) (l : Label) : Prop :=
  NoRace s l ∧ match l with
    | .execute _ _ _ rec => s.nextTid + 1 < 2 ^ 31 ∧ rec.isSome = true
    | .kill p => ((s.mem p).all fun t => (t.pt.bind s.mem).all fun u => u.holdsMinusOne t.tid) = true
    | .wait p pid => ∀ t ∈ s.mem p,
      match s.getThreadByPid pid with
      | none => pid = 0 ∨ t.subThreads = [] ∨ Own s.log t pid
      | some st => s.isParent st p = true → Own s.log t pid
    | _ => True

instance (s : Threads) (p : Page) (pid : ℤ) (t : Thread) : Decidable
    (match s.getThreadByPid pid with
      | none => pid = 0 ∨ t.subThreads = [] ∨ Own s.log t pid
      | some st => s.isParent st p = true → Own s.log t pid) :=
  match s.getThreadByPid pid with
  | none => inferInstanceAs (Decidable (_ ∨ _ ∨ _))
  | some _ => inferInstanceAs (Decidable (_ → _))

instance : ∀ (s : Threads) (l : Label), Decidable (StatusOk s l)
  | _, .execute .. => inferInstanceAs (Decidable (_ ∧ _ ∧ _))
  | _, .kill _ => inferInstanceAs (Decidable (_ ∧ _ = true))
  | s, .wait p _ => inferInstanceAs (Decidable (_ ∧ ∀ t ∈ s.mem p, _))
  | _, .exit .. | _, .invalid _ | _, .advance _ | _, .sleep _ | _, .wake .. =>
    inferInstanceAs (Decidable (_ ∧ True))

/-! ## The invariant -/

/-- In `thread_exit`. -/
def Pc.ending : Pc → Bool
  | .exiting | .exitUnblock _ | .exitRemove | .asleep .exiting => true
  | _ => false

/-- What a thread inside `process_wait` has to bring along for its return value. -/
def Phase (m : Page → Option Thread) (L : List Event) (p : Page) (t : Thread) : Prop :=
  match t.pc with
  | .waitGone pid => pid = 0 ∨ t.subThreads = [] ∨ Own L t pid ∧ Ended L pid
  | .waitFound pid st | .waitParent pid st => ∀ d, m st = some d → d.pt = some p → Own L t pid
  | .waitFlag pid _ | .waitBlock pid _ => Own L t pid
  | .waitBlocked pid _ => Own L t pid ∧ (t.status ≠ .blocked → Ended L pid)
  | _ => True

/-- What log and records say about one thread. -/
structure ThreadOk (m : Page → Option Thread) (L : List Event) (p : Page) (t : Thread) : Prop where
  ended : Ended L t.tid ↔ t.pc.ending = true
  recorded : ∀ r ∈ t.subThreads, r.pid ≠ -1 → .executed t.tid r.pid ∈ L
  records : ∀ pid, .executed t.tid pid ∈ L → t.subThreads ≠ []
  code : ∀ r, t.subThreads.head? = some r → r.pid ≠ -1 → Ended L r.pid →
    r.exitCode = exitStatus L r.pid
  phase : Phase m L p t

/-- Threads, log and records of a run that meets `StatusOk`; `n` is the next `tid`. -/
structure StatusInv (m : Page → Option Thread) (L : List Event) (n : ℤ) : Prop where
  tid_lt : ∀ p t, m p = some t → 0 < t.tid ∧ t.tid < n
  tid_inj : ∀ p q t u, m p = some t → m q = some u → t.tid = u.tid → p = q
  executed_lt : ∀ P pid, .executed P pid ∈ L → 0 < pid ∧ P < n ∧ pid < n
  ended_lt : ∀ pid, Ended L pid → pid < n
  /-- a child points to its creator, as long as that lives -/
  parent : ∀ p q c t, m q = some c → m p = some t → .executed t.tid c.tid ∈ L → c.pt = some p
  alive : ∀ P pid, .executed P pid ∈ L → Ended L pid ∨ ∃ q c, m q = some c ∧ c.tid = pid
  thread : ∀ p t, m p = some t → ThreadOk m L p t
  waitOk : WaitOk L

/-! ## A step changes one thread -/

variable {m m' : Page → Option Thread} {L L' : List Event} {n : ℤ} {p q : Page} {t t' : Thread}

theorem Phase.of_held (h : Phase m L p t)
    (hm : ∀ pid st d', t.pc.Holds pid st → m' st = some d' → ∃ d, m st = some d ∧ d.pt = d'.pt) :
    Phase m' L p t := by
  unfold Phase at h ⊢
  cases hk : t.pc with
  | waitFound pid st =>
    rw [hk] at h
    intro d' hd' hpt
    obtain ⟨d, hd, he⟩ := hm pid st d' (by simp [Pc.Holds, hk]) hd'
    exact h d hd (he.trans hpt)
  | waitParent pid st =>
    rw [hk] at h
    intro d' hd' hpt
    obtain ⟨d, hd, he⟩ := hm pid st d' (by simp [Pc.Holds, hk]) hd'
    exact h d hd (he.trans hpt)
  | _ => rwa [hk] at h

theorem Phase.of_pt (h : Phase m L p t)
    (hm : ∀ st d', m' st = some d' → ∃ d, m st = some d ∧ d.pt = d'.pt) : Phase m' L p t :=
  h.of_held fun _ st d' _ => hm st d'

namespace StatusInv

/-- The thread of page `p` keeps its `tid` and its parent, or it has ended and is gone; the log may
    say that it has executed one of the threads. -/
theorem set (h : StatusInv m L n) (hp : m p = some t) {o : Option Thread}
    (ho : ∀ t', o = some t' → t'.tid = t.tid ∧ t'.pt = t.pt ∧ ThreadOk m L' p t')
    (hgone : o = none → Ended L' t.tid)
    (hex : ∀ P x, .executed P x ∈ L' → .executed P x ∈ L ∨
      P = t.tid ∧ ∃ q c, m q = some c ∧ c.tid = x ∧ c.pt = some p)
    (hend : ∀ x, Ended L x → Ended L' x) (hlt : ∀ x, Ended L' x → x < n)
    (hothers : ∀ q u, q ≠ p → m q = some u → ThreadOk m L' q u) (hw : WaitOk L') :
    StatusInv (update m p o) L' n := by
  have hm : ∀ q u', update m p o q = some u' →
      ∃ u, m q = some u ∧ u'.tid = u.tid ∧ u'.pt = u.pt ∧ ThreadOk m L' q u' := by
    intro q u' hu
    rcases eq_or_ne q p with rfl | hne
    · rw [update_self] at hu
      exact ⟨t, hp, ho u' hu⟩
    · rw [update_of_ne hne] at hu
      exact ⟨u', hu, rfl, rfl, hothers q u' hne hu⟩
  constructor
  case tid_lt =>
    intro q u' hu
    obtain ⟨u, hu, e, -⟩ := hm q u' hu
    rw [e]; exact h.tid_lt q u hu
  case tid_inj =>
    intro q q' u' w' hu hw htid
    obtain ⟨u, hu, e, -⟩ := hm q u' hu
    obtain ⟨w, hw, e', -⟩ := hm q' w' hw
    exact h.tid_inj q q' u w hu hw (by rw [← e, ← e', htid])
  case executed_lt =>
    intro P x hx
    rcases hex P x hx with hx | ⟨rfl, q, c, hc, rfl, -⟩
    · exact h.executed_lt P x hx
    · exact ⟨(h.tid_lt q c hc).1, (h.tid_lt p t hp).2, (h.tid_lt q c hc).2⟩
  case ended_lt => exact hlt
  case parent =>
    intro q q' c' u' hc hu hx
    obtain ⟨c, hc, e, ept, -⟩ := hm q' c' hc
    obtain ⟨u, hu, e', -⟩ := hm q u' hu
    rw [e, e'] at hx
    rw [ept]
    rcases hex _ _ hx with hx | ⟨htid, r, d, hd, hdc, hpt⟩
    · exact h.parent q q' c u hc hu hx
    · cases h.tid_inj _ _ _ _ hu hp htid
      cases h.tid_inj _ _ _ _ hd hc hdc
      cases hc.symm.trans hd
      exact hpt
  case alive =>
    intro P x hx
    have halive : Ended L x ∨ ∃ q c, m q = some c ∧ c.tid = x := by
      rcases hex P x hx with hx | ⟨-, q, c, hc, e, -⟩
      · exact h.alive P x hx
      · exact .inr ⟨q, c, hc, e⟩
    rcases halive with he | ⟨q, c, hc, rfl⟩
    · exact .inl (hend x he)
    · rcases eq_or_ne q p with rfl | hne
      · cases hp.symm.trans hc
        cases o with
        | none => exact .inl (hgone rfl)
        | some t' => exact .inr ⟨q, t', update_self .., (ho t' rfl).1⟩
      · exact .inr ⟨q, c, by rw [update_of_ne hne, hc], rfl⟩
  case thread =>
    intro q u' hu
    obtain ⟨-, -, -, -, hok⟩ := hm q u' hu
    refine { hok with phase := hok.phase.of_pt fun st d' hd => ?_ }
    obtain ⟨d, hd, -, ept, -⟩ := hm st d' hd
    exact ⟨d, hd, ept.symm⟩
  case waitOk => exact hw

/-- The log is the same. -/
theorem set_same (h : StatusInv m L n) (hp : m p = some t) {o : Option Thread}
    (ho : ∀ t', o = some t' → t'.tid = t.tid ∧ t'.pt = t.pt ∧ ThreadOk m L p t')
    (hgone : o = none → Ended L t.tid) : StatusInv (update m p o) L n :=
  h.set hp ho hgone (fun _ _ => .inl) (fun _ => id) h.ended_lt (fun q u _ => h.thread q u) h.waitOk

/-- The thread keeps what the log and the records are about. -/
theorem changed (h : StatusInv m L n) (hp : m p = some t) (htid : t'.tid = t.tid)
    (hpt : t'.pt = t.pt) (hs : t'.subThreads = t.subThreads) (hk : t'.pc.ending = t.pc.ending)
    (hph : Phase m L p t') : StatusInv (update m p (some t')) L n := by
  refine h.set_same hp ?_ nofun
  rintro _ ⟨⟩
  obtain ⟨hended, hrecorded, hrecords, hcode, -⟩ := h.thread p t hp
  rw [← htid] at hended hrecorded hrecords
  rw [← hs] at hrecorded hrecords hcode
  rw [← hk] at hended
  exact ⟨htid, hpt, hended, hrecorded, hrecords, hcode, hph⟩

theorem removed (h : StatusInv m L n) (hp : m p = some t) (he : t.pc.ending = true) :
    StatusInv (update m p none) L n :=
  h.set_same hp nofun fun _ => (h.thread p t hp).ended.2 he

end StatusInv

/-! ## Steps that the log records -/

section
variable {e : Event} {pid v : ℤ}

variable {x : ℤ}

@[simp] theorem ended_exited : Ended (.exited pid v :: L) x ↔ x = pid ∨ Ended L x := by
  simp only [Ended, mem_cons, Event.exited.injEq, reduceCtorEq, false_or]
  constructor
  · rintro (⟨w, ⟨rfl, -⟩ | h⟩ | h)
    · exact .inl rfl
    · exact .inr (.inl ⟨w, h⟩)
    · exact .inr (.inr h)
  · rintro (rfl | ⟨w, h⟩ | h)
    · exact .inl ⟨v, .inl ⟨rfl, rfl⟩⟩
    · exact .inl ⟨w, .inr h⟩
    · exact .inr h

@[simp] theorem ended_killed : Ended (.killed pid :: L) x ↔ x = pid ∨ Ended L x := by
  simp only [Ended, mem_cons, reduceCtorEq, false_or, Event.killed.injEq]
  tauto

@[simp] theorem ended_executed {P : ℤ} : Ended (.executed P pid :: L) x ↔ Ended L x := by
  simp [Ended]

@[simp] theorem ended_waited {P : ℤ} : Ended (.waited P pid v :: L) x ↔ Ended L x := by
  simp [Ended]

theorem Ended.cons (h : Ended L x) (e : Event) : Ended (e :: L) x := by
  rcases h with ⟨w, h⟩ | h
  · exact .inl ⟨w, mem_cons_of_mem _ h⟩
  · exact .inr (mem_cons_of_mem _ h)

theorem exitStatus_of_not_ended : ∀ {L : List Event}, ¬ Ended L pid → exitStatus L pid = -1
  | [], _ => rfl
  | .exited q w :: L, h => by
    rw [ended_exited, not_or] at h
    rw [exitStatus, if_neg (Ne.symm h.1)]; exact exitStatus_of_not_ended h.2
  | .executed .. :: L, h | .killed _ :: L, h | .waited .. :: L, h =>
    exitStatus_of_not_ended (L := L) fun h' => h (h'.cons _)

theorem Own.cons (h : Own L t pid) (hw : e.isWait t.tid pid = false) : Own (e :: L) t pid :=
  ⟨h.1, h.2.1, by rw [any_cons, hw, h.2.2]; rfl⟩

theorem Phase.cons (h : Phase m L p t) (hw : ∀ pid, e.isWait t.tid pid = false) :
    Phase m (e :: L) p t := by
  unfold Phase at h ⊢
  cases hk : t.pc with
  | waitGone x =>
    rw [hk] at h
    rcases h with h | h | ⟨h, he⟩
    · exact .inl h
    · exact .inr (.inl h)
    · exact .inr (.inr ⟨h.cons (hw x), he.cons e⟩)
  | waitFound x st | waitParent x st =>
    rw [hk] at h
    intro d hd hpt
    exact (h d hd hpt).cons (hw x)
  | waitFlag x _ | waitBlock x _ => rw [hk] at h; exact h.cons (hw x)
  | waitBlocked x _ => rw [hk] at h; exact ⟨h.1.cons (hw x), fun hb => (h.2 hb).cons e⟩
  | _ => trivial

end

namespace StatusInv
variable {pid v : ℤ}

theorem returned (h : StatusInv m L n) (hp : m p = some t) (hu : t.pc = .user)
    (hr : Returns L t.tid pid v) : StatusInv m (.waited t.tid pid v :: L) n where
  tid_lt := h.tid_lt
  tid_inj := h.tid_inj
  executed_lt P c hex := h.executed_lt P c (by simpa using hex)
  ended_lt c he := h.ended_lt c (by simpa using he)
  parent p q c u hc hu hex := h.parent p q c u hc hu (by simpa using hex)
  alive P c hex := by simpa using h.alive P c (by simpa using hex)
  thread q u hq := by
    obtain ⟨hended, hrecorded, hrecords, hcode, hph⟩ := h.thread q u hq
    refine ⟨by simpa using hended, by simpa using hrecorded, by simpa using hrecords, fun r hr' hpid he =>
      hcode r hr' hpid (by simpa using he), ?_⟩
    by_cases hqp : q = p
    · subst hqp
      cases hp.symm.trans hq
      simp [Phase, hu]
    · have hne : t.tid ≠ u.tid := fun he => hqp (h.tid_inj q p u t hq hp he.symm)
      exact hph.cons (by simp [Event.isWait, hne])
  waitOk := ⟨hr, h.waitOk⟩

theorem ends (h : StatusInv m L n) (hp : m p = some t) {e : Event}
    (he : e = .exited t.tid v ∨ e = .killed t.tid)
    (hcode : ∀ q u r, m q = some u → u.subThreads.head? = some r → r.pid = t.tid →
      .executed u.tid t.tid ∈ L → r.exitCode = exitStatus (e :: L) t.tid) :
    StatusInv (update m p (some { t with pc := .exiting })) (e :: L) n := by
  have hend : ∀ x, Ended (e :: L) x ↔ x = t.tid ∨ Ended L x := by
    intro x; rcases he with rfl | rfl <;> simp
  have hex : ∀ P x, .executed P x ∈ e :: L ↔ .executed P x ∈ L := by
    intro P x; rcases he with rfl | rfl <;> simp
  have hst : ∀ x, x ≠ t.tid → exitStatus (e :: L) x = exitStatus L x := by
    intro x hx; rcases he with rfl | rfl <;> simp [exitStatus, hx.symm]
  -- for another thread, and for `t` up to its place in the code
  have hok : ∀ q u, m q = some u → ∀ k, (Ended (e :: L) u.tid ↔ k.ending = true) →
      Phase m (e :: L) q { u with pc := k } → ThreadOk m (e :: L) q { u with pc := k } := by
    intro q u hq k hk hph
    have hu := h.thread q u hq
    refine ⟨hk, fun r hr hpid => (hex ..).2 (hu.recorded r hr hpid), fun x hx =>
      hu.records x ((hex ..).1 hx), fun r hr hpid hx => ?_, hph⟩
    by_cases hrt : r.pid = t.tid
    · rw [hrt]
      exact hcode q u r hq hr hrt (hrt ▸ hu.recorded r (mem_of_head? hr) hpid)
    · rw [hst _ hrt]
      exact hu.code r hr hpid (((hend _).1 hx).resolve_left hrt)
  refine h.set hp ?_ nofun (fun P x hx => .inl ((hex P x).1 hx)) (fun x hx => (hend x).2 (.inr hx))
    (fun x hx => ?_) (fun q u hne hq => ?_) ?_
  · rintro _ ⟨⟩
    exact ⟨rfl, rfl, hok p t hp .exiting (by simp [hend, Pc.ending]) trivial⟩
  · rcases (hend x).1 hx with rfl | hx
    · exact (h.tid_lt p t hp).2
    · exact h.ended_lt x hx
  · have hne' : u.tid ≠ t.tid := fun he => hne (h.tid_inj q p u t hq hp he)
    refine hok q u hq u.pc ?_ ((h.thread q u hq).phase.cons ?_)
    · rw [hend, or_iff_right hne']; exact (h.thread q u hq).ended
    · intro x; rcases he with rfl | rfl <;> rfl
  · rcases he with rfl | rfl <;> exact h.waitOk

end StatusInv

/-! ## Steps that change records -/

theorem setExitCode_pid (pid code : ℤ) (rs : List SubThread) :
    (setExitCode pid code rs).map SubThread.pid = rs.map SubThread.pid := by
  induction rs with
  | nil => rfl
  | cons r rs ih =>
    rw [setExitCode]
    split_ifs
    · rfl
    · rw [map_cons, map_cons, ih]

theorem setExitCode_head {pid code : ℤ} {rs : List SubThread} {r : SubThread}
    (h : (setExitCode pid code rs).head? = some r) :
    ∃ r0, rs.head? = some r0 ∧ r.pid = r0.pid ∧ r.exitCode = if r0.pid = pid then code else r0.exitCode := by
  cases rs with
  | nil => simp [setExitCode] at h
  | cons r0 rs =>
    refine ⟨r0, rfl, ?_⟩
    rw [setExitCode] at h
    split_ifs at h with hp <;> rw [head?_cons, Option.some.injEq] at h <;> subst h
    · exact ⟨rfl, (if_pos hp).symm⟩
    · exact ⟨rfl, (if_neg hp).symm⟩

theorem head?_map_of_map_eq {rs rs' : List SubThread}
    (h : rs'.map SubThread.pid = rs.map SubThread.pid) :
    rs'.head?.map SubThread.pid = rs.head?.map SubThread.pid := by
  rw [← head?_map, ← head?_map, h]

theorem Phase.of_subThreads (h : Phase m L p t) (htid : t'.tid = t.tid) (hpc : t'.pc = t.pc)
    (hst : t'.status = t.status)
    (hs : t'.subThreads.head?.map SubThread.pid = t.subThreads.head?.map SubThread.pid) :
    Phase m L p t' := by
  have hown : ∀ pid, Own L t pid → Own L t' pid := by
    intro pid ho
    exact ⟨hs.trans ho.1, ho.2.1, by rw [htid]; exact ho.2.2⟩
  have hnil : t.subThreads = [] → t'.subThreads = [] := by
    intro hnil
    rw [hnil] at hs
    exact head?_eq_none_iff.1 (Option.map_eq_none_iff.1 hs)
  unfold Phase at h ⊢
  rw [hpc]
  cases hk : t.pc with
  | waitGone pid =>
    rw [hk] at h
    rcases h with h | h | ⟨h, he⟩
    · exact .inl h
    · exact .inr (.inl (hnil h))
    · exact .inr (.inr ⟨hown pid h, he⟩)
  | waitFound pid st | waitParent pid st =>
    rw [hk] at h
    intro d hd hpt
    exact hown pid (h d hd hpt)
  | waitFlag pid _ | waitBlock pid _ => rw [hk] at h; exact hown pid h
  | waitBlocked pid _ => rw [hk] at h; exact ⟨hown pid h.1, by rw [hst]; exact h.2⟩
  | _ => trivial

namespace StatusInv

theorem update_records (h : StatusInv m L n) {rs : List SubThread} (hq : m q = some t)
    (hrec : ∀ r ∈ rs, r.pid ≠ -1 → .executed t.tid r.pid ∈ L) (hne : t.subThreads ≠ [] → rs ≠ [])
    (hcode : ∀ r, rs.head? = some r → r.pid ≠ -1 → Ended L r.pid → r.exitCode = exitStatus L r.pid)
    (hph : Phase m L q { t with subThreads := rs }) :
    StatusInv (update m q (some { t with subThreads := rs })) L n := by
  refine h.set_same hq ?_ nofun
  rintro _ ⟨⟩
  have ht := h.thread q t hq
  exact ⟨rfl, rfl, ht.ended, hrec, fun x hx => hne (ht.records x hx), hcode, hph⟩

variable {pid : ℤ}

theorem setExit (h : StatusInv m L n) (code : ℤ) (hq : m q = some t) (he : ¬ Ended L pid) :
    StatusInv (update m q (some (t.setExit pid code))) L n := by
  have ht := h.thread q t hq
  have hpid := setExitCode_pid pid code t.subThreads
  refine h.update_records hq (fun r hr hr' => ?_) (fun hne hnil => ?_) (fun r hr hr' hx => ?_) ?_
  · obtain ⟨r0, hr0, hr₁⟩ := mem_map.1 (hpid ▸ mem_map_of_mem hr)
    rw [← hr₁]; exact ht.recorded r0 hr0 (hr₁ ▸ hr')
  · rw [hnil, map_nil, eq_comm, map_eq_nil_iff] at hpid
    exact hne hpid
  · obtain ⟨r0, hr0, e, ec⟩ := setExitCode_head hr
    rw [e] at hx hr'
    rw [ec, e, if_neg fun hx' => he (by rw [← hx']; exact hx)]
    exact ht.code r0 hr0 hr' hx
  · exact ht.phase.of_subThreads rfl rfl rfl (head?_map_of_map_eq hpid)

/-- The first record is not the new one, unless that is of no process that has ended. -/
theorem head_pushSub (h : ThreadOk m L p t) {x : ℤ} {junk : ℤ} {r : SubThread}
    (hr : (t.pushSub x (some junk)).subThreads.head? = some r) (hr' : r.pid ≠ -1) (hx : Ended L r.pid)
    (hnew : x = -1 ∨ ¬ Ended L x) : r.exitCode = exitStatus L r.pid := by
  simp only [Thread.pushSub] at hr
  cases hs : t.subThreads with
  | nil =>
    rw [hs] at hr; cases hr
    exact (hnew.elim hr' (· hx)).elim
  | cons r0 rs =>
    rw [hs, cons_append, head?_cons] at hr
    exact h.code r (by rw [hs, head?_cons, hr]) hr' hx

theorem pushed (h : StatusInv m L n) {junk : ℤ} (hp : m p = some t) (hu : t.pc = .user) :
    StatusInv (update m p (some (t.pushSub (-1) (some junk)))) L n := by
  refine h.update_records hp (fun r hr hr' => ?_) (fun _ => by simp)
    (fun r hr hr' hx => head_pushSub (h.thread p t hp) hr hr' hx (.inl rfl)) (by simp [Phase, hu])
  rcases mem_append.1 hr with hr | hr
  · exact (h.thread p t hp).recorded r hr hr'
  · rw [mem_singleton] at hr
    exact absurd (by rw [hr]) hr'

/-- A thread that no log names yet. -/
theorem added (h : StatusInv m L n) {c : Thread} (hn : 0 < n) (hq : m q = none)
    (hfree : ∀ q' w pid, m q' = some w → ¬ w.pc.Holds pid q) (hc : c.tid = n)
    (hcs : c.subThreads = []) (hcu : c.pc = .user) : StatusInv (update m q (some c)) L (n + 1) := by
  have hnew : ¬ Ended L n := fun he => lt_irrefl n (h.ended_lt n he)
  have hm : ∀ q' w, update m q (some c) q' = some w → q' = q ∧ w = c ∨ m q' = some w := by
    intro q' w hw
    rcases eq_or_ne q' q with rfl | hne
    · rw [update_self, Option.some.injEq] at hw
      exact .inl ⟨rfl, hw.symm⟩
    · rw [update_of_ne hne] at hw
      exact .inr hw
  constructor
  case tid_lt =>
    intro q' w hw
    rcases hm q' w hw with ⟨-, rfl⟩ | hw
    · rw [hc]; omega
    · have := h.tid_lt q' w hw; omega
  case tid_inj =>
    intro q1 q2 w1 w2 hw1 hw2 htid
    rcases hm q1 w1 hw1 with ⟨rfl, rfl⟩ | h₁ <;> rcases hm q2 w2 hw2 with ⟨rfl, rfl⟩ | h2
    · rfl
    · have := h.tid_lt q2 w2 h2; omega
    · have := h.tid_lt q1 w1 h₁; omega
    · exact h.tid_inj q1 q2 w1 w2 h₁ h2 htid
  case executed_lt => intro P x hx; have := h.executed_lt P x hx; omega
  case ended_lt => intro x hx; have := h.ended_lt x hx; omega
  case parent =>
    intro q1 q2 d w hd hw hx
    have := h.executed_lt _ _ hx
    rcases hm q2 d hd with ⟨-, rfl⟩ | hd
    · omega
    · rcases hm q1 w hw with ⟨-, rfl⟩ | hw
      · omega
      · exact h.parent q1 q2 d w hd hw hx
  case alive =>
    intro P x hx
    rcases h.alive P x hx with he | ⟨q', d, hd, rfl⟩
    · exact .inl he
    · have hne : q' ≠ q := by rintro rfl; rw [hq] at hd; cases hd
      exact .inr ⟨q', d, by rw [update_of_ne hne, hd], rfl⟩
  case thread =>
    intro q' w hw
    rcases hm q' w hw with ⟨-, rfl⟩ | hw'
    · refine ⟨by simp [hc, hcu, hnew, Pc.ending], by simp [hcs], fun x hx => ?_, by simp [hcs],
        by simp [Phase, hcu]⟩
      have := h.executed_lt _ _ hx; omega
    · have hok := h.thread q' w hw'
      refine { hok with phase := hok.phase.of_held fun pid st d' hh hd' => ?_ }
      -- nobody has looked the new thread up
      rcases hm st d' hd' with ⟨rfl, -⟩ | hd
      · exact absurd hh (hfree q' w pid hw')
      · exact ⟨d', hd, rfl⟩
  case waitOk => exact h.waitOk

/-- The record of a thread that is there, with the log that says so. -/
theorem executed (h : StatusInv m L n) (junk : ℤ) {c : Thread} (hp : m p = some t) (hu : t.pc = .user)
    (hq : m q = some c) (hcp : c.pt = some p) (hc : ¬ Ended L c.tid) :
    StatusInv (update m p (some (t.pushSub c.tid (some junk)))) (.executed t.tid c.tid :: L) n := by
  refine h.set hp ?_ nofun (fun P x hx => ?_) (fun x hx => hx.cons _)
    (fun x hx => h.ended_lt x (by simpa using hx)) (fun q' w hne hw => ?_) h.waitOk
  · rintro _ ⟨⟩
    have ht := h.thread p t hp
    refine ⟨rfl, rfl, ended_executed.trans ht.ended, fun r hr hr' => ?_, by simp [Thread.pushSub],
      fun r hr hr' hx => head_pushSub ht hr hr' (by simpa using hx) (.inr hc), by simp [Phase, Thread.pushSub, hu]⟩
    rcases mem_append.1 hr with hr | hr
    · exact mem_cons_of_mem _ (ht.recorded r hr hr')
    · rw [mem_singleton] at hr; subst hr
      exact mem_cons_self
  · rcases mem_cons.1 hx with hx | hx
    · cases hx
      exact .inr ⟨rfl, q, c, hq, rfl, hcp⟩
    · exact .inl hx
  · have hok := h.thread q' w hw
    refine ⟨by simpa using hok.ended, fun r hr hr' => mem_cons_of_mem _ (hok.recorded r hr hr'), fun x hx => ?_,
      fun r hr hr' hx => hok.code r hr hr' (by simpa using hx), hok.phase.cons fun _ => rfl⟩
    rcases mem_cons.1 hx with hx | hx
    · rw [Event.executed.injEq] at hx
      exact absurd (h.tid_inj q' p w t hw hp hx.1) hne
    · exact hok.records x hx

theorem created (h : StatusInv m L n) (junk : ℤ) {c : Thread} (hp : m p = some t) (hu : t.pc = .user)
    (hq : m q = none) (hfree : ∀ q' w pid, m q' = some w → ¬ w.pc.Holds pid q) (hc : c.tid = n)
    (hcp : c.pt = some p) (hcs : c.subThreads = []) (hcu : c.pc = .user) :
    StatusInv (update (update m p (some (t.pushSub n (some junk)))) q (some c))
      (.executed t.tid n :: L) (n + 1) := by
  have hn := h.tid_lt p t hp
  have hne : p ≠ q := by rintro rfl; rw [hq] at hp; cases hp
  have hadded := h.added (hn.1.trans hn.2) hq hfree hc hcs hcu
  subst hc
  rw [update_comm hne]
  exact hadded.executed junk (by rw [update_of_ne hne, hp]) hu (update_self ..) hcp
    fun he => lt_irrefl _ (h.ended_lt _ he)

theorem returns_own (h : StatusInv m L n) (hp : m p = some t) (ho : Own L t pid)
    (he : Ended L pid) : Returns L t.tid pid (getExitCode t pid) := by
  obtain ⟨hhead, hpid, hw⟩ := ho
  obtain ⟨r, hr, rfl⟩ := Option.map_eq_some_iff.1 hhead
  have hex : .executed t.tid r.pid ∈ L := (h.thread p t hp).recorded r (mem_of_head? hr) hpid
  have hcode : getExitCode t r.pid = r.exitCode := by
    obtain ⟨rs, hs⟩ : ∃ rs, t.subThreads = r :: rs := by
      cases hs : t.subThreads with
      | nil => rw [hs] at hr; cases hr
      | cons r0 rs => rw [hs, head?_cons, Option.some.injEq] at hr; exact ⟨rs, by rw [hr]⟩
    have h0 : r.pid ≠ 0 := fun h0 => by have := h.executed_lt _ _ hex; omega
    rw [getExitCode, if_pos h0, hs]
  refine ⟨fun _ => ⟨he, ?_⟩, fun hno => absurd ⟨hex, fun v hv => ?_⟩ hno⟩
  · rw [hcode]; exact (h.thread p t hp).code r hr hpid he
  · have := any_eq_false.1 hw _ hv
    simp [Event.isWait] at this

theorem returns_stranger {P : ℤ} (hno : .executed P pid ∉ L) : Returns L P pid (-1) :=
  ⟨fun ho => absurd ho.1 hno, fun _ => rfl⟩

end StatusInv

/-! ## Steps of the model -/

namespace Threads
variable {s s' : Threads} {pid : ℤ}

@[simp] theorem cards_set (s : Threads) (p : Page) (t : Thread) :
    (s.set p t).cards = update s.cards p (some t.card) := by
  funext q
  by_cases h : q = p
  · subst h; simp [cards, set]
  · simp [cards, set, h]

@[simp] theorem cards_goto (s : Threads) (p : Page) (t : Thread) (k : Pc) :
    (s.goto p t k).cards = update s.cards p (some { t.card with pc := k }) := cards_set ..

theorem cards_eq (h : s.mem p = some t) : s.cards p = some t.card := by simp [cards, h]

theorem mem_of_cards {c : Thread} (h : s.cards p = some c) : ∃ t, s.mem p = some t ∧ t.card = c :=
  Option.map_eq_some_iff.1 h

end Threads

/-- What holds in every state of a run that meets `StatusOk`. -/
structure RunInv (s : Threads) : Prop where
  wait : WaitInv s
  status : StatusInv s.cards s.log s.nextTid

namespace RunInv
variable {s : Threads} {pid v : ℤ}

section

variable (h : RunInv s) (hp : s.mem p = some t)
include h hp

theorem goto {k : Pc} (hk : k.ending = t.pc.ending)
    (hph : Phase s.cards s.log p { t.card with pc := k }) :
    StatusInv (s.goto p t k).cards s.log s.nextTid := by
  rw [Threads.cards_goto]
  exact h.status.changed (Threads.cards_eq hp) rfl rfl rfl hk hph

theorem waitReturn (hk : t.pc.ending = false)
    (hr : Returns s.log t.tid pid v) :
    StatusInv (s.waitReturn p t pid v).cards (s.waitReturn p t pid v).log s.nextTid := by
  have hgo := h.goto hp (k := .user) hk.symm trivial
  rw [Threads.cards_goto] at hgo
  have := hgo.returned (update_self ..) rfl hr
  rwa [← Threads.cards_goto] at this

theorem not_ended (hu : t.pc = .user) : ¬ Ended s.log t.tid := by
  have := (h.status.thread p t.card (Threads.cards_eq hp)).ended
  rw [show t.card.pc = .user from hu] at this
  exact fun he => by simpa [Pc.ending] using this.1 he

theorem ne_parent (hq : t.pt = some q) : p ≠ q := by
  rintro rfl
  exact h.wait.handshake.noSelf p t.core (Threads.view_eq hp) hq

theorem exit (hu : t.pc = .user) (status : ℤ) (hits : Bool) :
    StatusInv (s.exit p t status hits).cards (s.exit p t status hits).log s.nextTid := by
  have hne := h.not_ended hp hu
  have hf : StatusInv (s.goto p t .faulting).cards s.log s.nextTid :=
    h.goto hp (by rw [hu]; rfl) trivial
  unfold Threads.exit
  cases hq : t.pt with
  | none => exact hf
  | some q =>
    dsimp only
    cases hm : s.mem q with
    | none => rwa [show (s.orphan t hits).mem q = none from hm]
    | some u =>
      rw [show (s.orphan t hits).mem q = some u from hm]
      have hpq := h.ne_parent hp hq
      have h₁ := h.status.setExit status (Threads.cards_eq hm) hne
      have hp1 : update s.cards q (some (u.card.setExit t.tid status)) p = some t.card := by
        rw [update_of_ne hpq, Threads.cards_eq hp]
      have h2 := h₁.ends (v := status) hp1 (.inl rfl) ?_
      · have hcards : ((((s.orphan t hits).set q (u.setExit t.tid status)).goto p t .exiting).record
            (.exited t.tid status)).cards = update (update s.cards q
              (some (u.card.setExit t.tid status))) p (some { t.card with pc := .exiting }) := by
          change (((s.orphan t hits).set q (u.setExit t.tid status)).goto p t .exiting).cards = _
          rw [Threads.cards_goto, Threads.cards_set]; rfl
        rwa [hcards]
      · -- only the parent has a record of `t`, and it is the one that was written
        intro q' u' r hq' hr hrt hex
        have hpt := h₁.parent q' p t.card u' hp1 hq' hex
        cases hq.symm.trans hpt
        rw [update_self, Option.some.injEq] at hq'; subst hq'
        obtain ⟨r0, -, e, ec⟩ := setExitCode_head hr
        rw [ec, if_pos (e ▸ hrt)]
        exact (if_pos rfl).symm

theorem kill (hu : t.pc = .user)
    (hk : ∀ q u, t.pt = some q → s.mem q = some u → u.holdsMinusOne t.tid = true) :
    StatusInv (s.goto p t .exiting).cards (.killed t.tid :: s.log) s.nextTid := by
  rw [Threads.cards_goto]
  refine h.status.ends (v := 0) (Threads.cards_eq hp) (.inr rfl) fun q u r hq hr hrt hex => ?_
  have hpt := h.status.parent q p t.card u (Threads.cards_eq hp) hq hex
  obtain ⟨u, hu', rfl⟩ := Threads.mem_of_cards hq
  have := all_eq_true.1 (hk q u hpt hu') r (mem_of_head? hr)
  have hr1 : r.exitCode = -1 := by simpa [show r.pid = t.tid from hrt] using this
  rw [hr1]; exact (exitStatus_of_not_ended (h.not_ended hp hu)).symm

theorem invalid (hu : t.pc = .user) :
    StatusInv (s.processInvalidExit p t).cards (s.processInvalidExit p t).log s.nextTid := by
  have hf : StatusInv (s.goto p t .faulting).cards s.log s.nextTid :=
    h.goto hp (by rw [hu]; rfl) trivial
  unfold Threads.processInvalidExit
  cases hq : t.pt with
  | none => exact hf
  | some q =>
    dsimp only
    cases hm : s.mem q with
    | none => exact hf
    | some u =>
      rw [Threads.cards_goto, Threads.cards_set]
      have h₁ := h.status.setExit (-1) (Threads.cards_eq hm) (h.not_ended hp hu)
      refine h₁.changed (t := t.card) ?_ rfl rfl rfl (congrArg Pc.ending hu.symm) trivial
      rw [update_of_ne (h.ne_parent hp hq), Threads.cards_eq hp]

theorem execute (hu : t.pc = .user) {fnCopy : Bool}
    {page : Option Page} {junk : ℤ} {s' : Threads} (hn : s.nextTid + 1 < 2 ^ 31)
    (hs : s.processExecute p t fnCopy page (some junk) = some s') :
    StatusInv s'.cards s'.log s'.nextTid := by
  have hc := Threads.cards_eq hp
  unfold Threads.processExecute at hs
  split_ifs at hs with hf
  · cases hs
    rw [Threads.cards_set]
    exact h.status.changed hc rfl rfl rfl rfl (h.status.thread p _ hc).phase
  · cases page with
    | none =>
      cases hs
      rw [Threads.cards_set]
      exact h.status.pushed hc hu
    | some q =>
      dsimp only at hs
      split_ifs at hs with hq
      push Not at hq
      cases hs
      have hqn : s.cards q = none := by simp [Threads.cards, Option.not_isSome_iff_eq_none.1 hq.1]
      have hfree : ∀ q' w x, s.cards q' = some w → ¬ w.pc.Holds x q := by
        intro q' w x hw hh
        obtain ⟨u, hu', rfl⟩ := Threads.mem_of_cards hw
        obtain ⟨d, hd, -⟩ := h.wait.handshake.found q' u.core x q (Threads.view_eq hu') hh
        simp [Threads.view, Option.not_isSome_iff_eq_none.1 hq.1] at hd
      have htid := h.status.tid_lt p _ hc
      have hb : (s.nextTid + 1).bmod (2 ^ 32) = s.nextTid + 1 :=
        Int.bmod_eq_of_le (by omega) (by omega)
      rw [hb]
      have := h.status.created junk (c := (⟨s.nextTid, .ready, [], some p, false, .user⟩ : Thread).card)
        hc hu hqn hfree rfl rfl rfl rfl
      change StatusInv ((s.set p _).set q _).cards _ _
      rwa [Threads.cards_set, Threads.cards_set]

end

theorem ended_of_not_found (h : RunInv s) (hg : s.getThreadByPid pid = none) {P : ℤ}
    (hex : .executed P pid ∈ s.log) : Ended s.log pid := by
  obtain he | ⟨q, c, hc, rfl⟩ := h.status.alive P pid hex
  · exact he
  · obtain ⟨u, hu, rfl⟩ := Threads.mem_of_cards hc
    by_cases hk : u.pc = .exitRemove
    · exact (h.status.thread q u.card hc).ended.2 (by rw [show u.card.pc = .exitRemove from hk]; rfl)
    · have hl := h.wait.listed q u.core (Threads.view_eq hu) hk
      have := find?_eq_none.1 hg q hl
      simp [hu, Thread.card] at this

theorem processWait (h : RunInv s) (hp : s.mem p = some t) (hu : t.pc = .user)
    (hok : match s.getThreadByPid pid with
      | none => pid = 0 ∨ t.subThreads = [] ∨ Own s.log t pid
      | some st => s.isParent st p = true → Own s.log t pid) :
    StatusInv (s.processWait p t pid).cards (s.processWait p t pid).log s.nextTid := by
  have hk : t.pc.ending = false := by rw [hu]; rfl
  unfold Threads.processWait
  cases hg : s.getThreadByPid pid with
  | none =>
    rw [hg] at hok
    refine h.goto hp hk.symm ?_
    rcases hok with h0 | h0 | h0
    · exact .inl h0
    · exact .inr (.inl h0)
    · obtain ⟨r, hr, hrp⟩ := Option.map_eq_some_iff.1 h0.1
      have hex := (h.status.thread p _ (Threads.cards_eq hp)).recorded r (mem_of_head? hr) (hrp ▸ h0.2.1)
      exact .inr (.inr ⟨h0, h.ended_of_not_found hg (hrp ▸ hex)⟩)
  | some st =>
    rw [hg] at hok
    refine h.goto hp hk.symm fun d hd hpt => ?_
    obtain ⟨u, hu', rfl⟩ := Threads.mem_of_cards hd
    exact hok (by simp only [Threads.isParent, hu', beq_iff_eq]; exact hpt)

variable {st : Page}

section

variable (h : RunInv s) (hp : s.mem p = some t)
include h hp

theorem parent_of_found (hh : t.pc.Holds pid st)
    (hex : .executed t.tid pid ∈ s.log) : ∃ d, s.mem st = some d ∧ d.pt = some p ∧ d.tid = pid ∧
      d.pc.tested = false := by
  obtain ⟨c, hc, htid, ht⟩ := h.wait.handshake.found p t.core pid st (Threads.view_eq hp) hh
  obtain ⟨d, hd, rfl⟩ := Option.map_eq_some_iff.1 hc
  refine ⟨d, hd, ?_, htid, ht⟩
  exact h.status.parent p st d.card t.card (Threads.cards_eq hd) (Threads.cards_eq hp) (by rw [← htid] at hex; exact hex)

/-- A child that is waited for is not that of a thread which has just looked it up. -/
theorem not_child_of_waited (hk : t.pc = .waitFound pid st) (hw : s.isWaited st = true) : .executed t.tid pid ∉ s.log := by
  intro hex
  obtain ⟨d, hd, hpt, htid, ht⟩ := h.parent_of_found hp (.inl hk) hex
  have hw' : d.isWaitedByParent = true := by simpa [Threads.isWaited, hd] using hw
  obtain ⟨q, u, hq, hu, hu'⟩ := h.wait.handshake.waiting st d.core (Threads.view_eq hd) hw' ht
  cases hpt.symm.trans hq
  rw [Threads.view_eq hp, Option.some.injEq] at hu
  rw [← hu, show t.core.pc = .waitFound pid st from hk] at hu'
  simp at hu'

theorem not_child_of_stranger (hk : t.pc = .waitParent pid st) (hw : s.isParent st p = false) : .executed t.tid pid ∉ s.log := by
  intro hex
  obtain ⟨d, hd, hpt, -⟩ := h.parent_of_found hp (.inr (.inl hk)) hex
  simp [Threads.isParent, hd, hpt] at hw

theorem returns_gone (hk : t.pc = .waitGone pid) :
    Returns s.log t.tid pid (getExitCode t pid) := by
  have hc := Threads.cards_eq hp
  have hph := (h.status.thread p t.card hc).phase
  simp only [Phase, show t.card.pc = .waitGone pid from hk] at hph
  rcases hph with rfl | hs | ⟨ho, he⟩
  · exact StatusInv.returns_stranger fun hex => by have := h.status.executed_lt _ _ hex; omega
  · have hcode : getExitCode t pid = -1 := by
      simp [getExitCode, show t.subThreads = [] from hs]
    rw [hcode]
    exact StatusInv.returns_stranger fun hex => (h.status.thread p t.card hc).records pid hex hs
  · exact h.status.returns_own (t := t.card) hc ho he

theorem returns_woken (hk : t.pc = .waitBlocked pid st)
    (hb : t.core.blocked = false) : Returns s.log t.tid pid (getExitCode t pid) := by
  have hc := Threads.cards_eq hp
  have hph := (h.status.thread p t.card hc).phase
  simp only [Phase, show t.card.pc = .waitBlocked pid st from hk] at hph
  refine h.status.returns_own (t := t.card) hc hph.1 (hph.2 ?_)
  have : t.status ≠ .blocked := by simpa [Thread.core] using hb
  simp [Thread.card, this]

end

theorem threadUnblock (h : StatusInv s.cards s.log s.nextTid) {u : Thread}
    (hq : s.mem q = some u) (hb : u.status = .blocked)
    (hph : Phase s.cards s.log q { u with status := .ready }) :
    StatusInv (s.threadUnblock q).cards (s.threadUnblock q).log s.nextTid := by
  rw [Threads.threadUnblock, hq]
  dsimp only
  rw [if_pos hb, Threads.cards_set]
  exact h.changed (Threads.cards_eq hq) rfl rfl rfl rfl hph

theorem advance (h : RunInv s) (hp : s.mem p = some t) (hr : t.status = .running) {s' : Threads}
    (hs : s.advance p t = some s') : StatusInv s'.cards s'.log s.nextTid := by
  have hc := Threads.cards_eq hp
  have hph := (h.status.thread p t.card hc).phase
  have hb : t.core.blocked = false := by simp [Thread.core, hr]
  unfold Phase at hph
  rw [show t.card.pc = t.pc from rfl] at hph
  unfold Threads.advance at hs
  cases hk : t.pc with
  | waitGone pid =>
    rw [hk] at hs; cases hs
    exact h.waitReturn hp (by rw [hk]; rfl) (h.returns_gone hp hk)
  | waitFound pid st =>
    simp only [hk] at hs hph
    split_ifs at hs with hw <;> simp only [Option.some.injEq] at hs <;> subst hs
    · exact h.waitReturn hp (by rw [hk]; rfl) (StatusInv.returns_stranger (h.not_child_of_waited hp hk hw))
    · exact h.goto hp (by rw [hk]; rfl) hph
  | waitParent pid st =>
    simp only [hk] at hs hph
    split_ifs at hs with hw <;> simp only [Option.some.injEq] at hs <;> subst hs
    · obtain ⟨d, hd, hpt⟩ := Threads.isParent_spec hw
      exact h.goto hp (by rw [hk]; rfl) (hph d.card (Threads.cards_eq hd) hpt)
    · exact h.waitReturn hp (by rw [hk]; rfl)
        (StatusInv.returns_stranger (h.not_child_of_stranger hp hk (by simpa using hw)))
  | waitFlag pid st =>
    simp only [hk, Option.some.injEq] at hs hph; subst hs
    have h₁ : StatusInv (s.goto p t (.waitBlock pid st)).cards s.log s.nextTid :=
      h.goto hp (by rw [hk]; rfl) hph
    unfold Threads.setWaited
    cases hm : (s.goto p t (.waitBlock pid st)).mem st with
    | none => exact h₁
    | some d =>
      rw [Threads.cards_set]
      have hd := Threads.cards_eq hm
      exact h₁.changed hd rfl rfl rfl rfl (h₁.thread st d.card hd).phase
  | waitBlock pid st =>
    simp only [hk, Option.some.injEq] at hs hph; subst hs
    rw [Threads.cards_set]
    exact h.status.changed hc rfl rfl rfl (by rw [show t.card.pc = _ from hk]; rfl)
      ⟨hph, fun hne => absurd rfl hne⟩
  | waitBlocked pid st =>
    rw [hk] at hs; cases hs
    exact h.waitReturn hp (by rw [hk]; rfl) (h.returns_woken hp hk hb)
  | exiting =>
    simp only [hk] at hs
    split at hs <;> simp only [Option.some.injEq] at hs <;> subst hs <;>
      exact h.goto hp (by rw [hk]; rfl) trivial
  | exitUnblock q =>
    rw [hk] at hs; cases hs
    have h₁ : StatusInv (s.goto p t .exitRemove).cards s.log s.nextTid :=
      h.goto hp (by rw [hk]; rfl) trivial
    -- the parent is blocked for this child, which has ended
    obtain ⟨c, hu, hub, hupc⟩ := h.wait.handshake.unblock p t.core q (Threads.view_eq hp) hk
    obtain ⟨u, hm, rfl⟩ := Option.map_eq_some_iff.1 hu
    have hupc : u.pc = .waitBlocked t.tid p := hupc
    have hne : q ≠ p := by
      rintro rfl
      rw [hp, Option.some.injEq] at hm
      rw [← hm, hk] at hupc; cases hupc
    have hm' : (s.goto p t .exitRemove).mem q = some u := by simp [Threads.goto, Threads.set, hne, hm]
    refine threadUnblock h₁ hm' (by simpa [Thread.core] using hub) ?_
    have hph' := (h₁.thread q u.card (Threads.cards_eq hm')).phase
    simp only [Phase, show u.card.pc = _ from hupc] at hph'
    simp only [hupc]
    exact ⟨hph'.1, fun _ => (h.status.thread p t.card hc).ended.2 (by rw [show t.card.pc = _ from hk]; rfl)⟩
  | exitRemove =>
    rw [hk] at hs; cases hs
    by_cases h0 : p = initialThread
    · have hcards : (s.threadRemove p t).cards = update s.cards p (some t.card) := by
        funext q
        rcases eq_or_ne q p with rfl | hq
        · simp [Threads.cards, Threads.threadRemove, h0, Thread.card, hr]
        · simp [Threads.cards, Threads.threadRemove, hq]
      rw [hcards]
      exact h.status.changed hc rfl rfl rfl rfl (h.status.thread p _ hc).phase
    · have hcards : (s.threadRemove p t).cards = update s.cards p none := by
        funext q
        rcases eq_or_ne q p with rfl | hq
        · simp [Threads.cards, Threads.threadRemove, h0]
        · simp [Threads.cards, Threads.threadRemove, hq]
      rw [hcards]
      exact h.status.removed hc (by rw [show t.card.pc = _ from hk]; rfl)
  | asleep k =>
    rw [hk] at hs; cases hs
    rcases h.wait.handshake.asleep p t.core k (Threads.view_eq hp) hk with rfl | rfl
    · exact h.goto hp (by rw [hk]; rfl) trivial
    · exact h.goto hp (by rw [hk]; rfl) trivial
  | user | faulting => simp [hk] at hs

theorem enters (h : RunInv s) {s1 : Threads} (he : Threads.Enters s p s1 t) : RunInv s1 :=
  ⟨Threads.WaitInv.enters h.wait he, by rw [he.cards, he.log, he.nextTid]; exact h.status⟩

end RunInv

namespace Threads
variable {s s1 s' : Threads}

theorem Enters.isParent (he : Enters s p s1 t) (st : Page) : s1.isParent st p = s.isParent st p := by
  have hc : ∀ s : Threads, s.isParent st p = (s.cards st).any fun c => c.pt == some p := by
    intro s
    simp only [Threads.isParent, Threads.cards]
    cases s.mem st <;> rfl
  rw [hc, hc, he.cards]

theorem Enters.waitOk (he : Enters s p s1 t) {pid : ℤ} (hok : StatusOk s (.wait p pid)) :
    match s1.getThreadByPid pid with
    | none => pid = 0 ∨ t.subThreads = [] ∨ Own s1.log t pid
    | some st => s1.isParent st p = true → Own s1.log t pid := by
  obtain ⟨t0, ht0, rfl⟩ := he.old
  have hok := hok.2 t0 ht0
  rw [getThreadByPid_congr he.view he.allList, he.log]
  cases hg : s.getThreadByPid pid with
  | none => rwa [hg] at hok
  | some st =>
    rw [hg] at hok
    dsimp only
    rwa [he.isParent st]

theorem Enters.killOk (he : Enters s p s1 t) (hok : StatusOk s (.kill p)) {u : Thread}
    (hq : t.pt = some q) (hu : s1.mem q = some u) : u.holdsMinusOne t.tid = true := by
  obtain ⟨t0, ht0, rfl⟩ := he.old
  have hcu : s.cards q = some u.card := he.cards ▸ cards_eq hu
  obtain ⟨u0, hu0, hcard⟩ := mem_of_cards hcu
  have hs : u.subThreads = u0.subThreads := (congrArg Thread.subThreads hcard).symm
  have hok := hok.2
  simp only [ht0, Option.all_some, show t0.pt = some q from hq, Option.bind_some, hu0] at hok
  rwa [Thread.holdsMinusOne, hs]

/-- **Every step that meets the condition keeps threads, records and log in step.** -/
theorem step_runInv {l : Label} (hi : RunInv s) (hok : StatusOk s l) (h : s.step l = some s') :
    RunInv s' := by
  refine ⟨step_waitInv hi.wait hok.1 h, ?_⟩
  cases l with
  | execute p fnCopy page rec =>
    obtain ⟨s1, t, he, hu, h⟩ := call_spec h
    have he := enter_spec he
    obtain ⟨junk, rfl⟩ := Option.isSome_iff_exists.1 hok.2.2
    exact (hi.enters he).execute he.mem hu (by rw [he.nextTid]; exact hok.2.1) h
  | exit p status hits =>
    obtain ⟨s1, t, he, hu, h⟩ := call_spec h
    have he := enter_spec he
    cases h
    have := (hi.enters he).exit he.mem hu status hits
    rwa [← (exit_frame s1 p t status hits).2.2] at this
  | kill p =>
    obtain ⟨s1, t, he, hu, h⟩ := call_spec h
    have he := enter_spec he
    cases h
    exact (hi.enters he).kill he.mem hu fun q u hq hu' => he.killOk hok hq hu'
  | invalid p =>
    obtain ⟨s1, t, he, hu, h⟩ := call_spec h
    have he := enter_spec he
    cases h
    have := (hi.enters he).invalid he.mem hu
    rwa [← (processInvalidExit_frame s1 p t).2.2] at this
  | wait p pid =>
    obtain ⟨s1, t, he, hu, h⟩ := call_spec h
    have he := enter_spec he
    cases h
    have := (hi.enters he).processWait he.mem hu (he.waitOk hok)
    rwa [← (processWait_frame s1 p t pid).2.2] at this
  | advance p =>
    simp only [step] at h
    split at h
    · rename_i s1 t he
      have he := enter_spec he
      have := (hi.enters he).advance he.mem (by obtain ⟨t0, -, rfl⟩ := he.old; rfl) h
      rwa [← (advance_lists h).1] at this
    · cases h
  | sleep p =>
    simp only [step] at h
    split at h
    · rename_i s1 t he
      have he := enter_spec he
      split_ifs at h with hk
      cases h
      rw [cards_set]
      refine (hi.enters he).status.changed (cards_eq he.mem) rfl rfl rfl ?_ trivial
      rcases hk with hk | hk <;> simp [Thread.card, hk, Pc.ending]
    · cases h
  | wake p q =>
    obtain ⟨s1, t, he, hu, h⟩ := call_spec h
    have he := enter_spec he
    split at h
    · rename_i u hq
      split_ifs at h with hb
      cases h
      have hph : Phase s1.cards s1.log q { u with status := .ready } := by
        unfold Phase
        cases hpc : u.pc <;> simp_all [Pc.isAsleep]
      have := RunInv.threadUnblock (hi.enters he).status hq hb.1 hph
      rwa [← (threadUnblock_lists s1 q).2] at this
    · cases h

theorem boot_cards (h : boot.cards p = some t) :
    p = 0 ∧ t = ⟨1, .ready, [], none, false, .user⟩ ∨
      p = 1 ∧ t = ⟨2, .blocked, [], none, false, .asleep .user⟩ := by
  obtain ⟨u, hu, rfl⟩ := mem_of_cards h
  simp only [boot] at hu
  split_ifs at hu with h0 h1
  · cases hu; exact .inl ⟨h0, rfl⟩
  · cases hu; exact .inr ⟨h1, rfl⟩

theorem boot_runInv : RunInv boot := by
  have hlog : boot.log = [] := rfl
  refine ⟨boot_waitInv, ?_, ?_, ?_, ?_, ?_, ?_, ?_, trivial⟩
  · intro p t h; rcases boot_cards h with ⟨-, rfl⟩ | ⟨-, rfl⟩ <;> decide
  · intro p q t u hp hq htid
    rcases boot_cards hp with ⟨rfl, rfl⟩ | ⟨rfl, rfl⟩ <;>
      rcases boot_cards hq with ⟨rfl, rfl⟩ | ⟨rfl, rfl⟩ <;> simp_all
  · intro P pid h; simp [hlog] at h
  · intro pid h; simp [hlog, Ended] at h
  · intro p q c t _ _ h; simp [hlog] at h
  · intro P pid h; simp [hlog] at h
  · intro p t h
    rw [hlog]
    rcases boot_cards h with ⟨-, rfl⟩ | ⟨-, rfl⟩ <;>
      exact ⟨by simp [Ended, Pc.ending], nofun, nofun, nofun, trivial⟩

end Threads

/-! ## Runs -/

open Threads Lib

theorem reaches_runInv {s : Threads} (h : Reaches step StatusOk boot s) : RunInv s :=
  h.invariant boot_runInv fun _ _ _ hi hok hs => step_runInv hi hok hs

/-- **Every wait returns what it has to**, in a run whose steps meet the condition. -/
theorem wait_returns_status {s : Threads} (h : Reaches step StatusOk boot s) : WaitOk s.log :=
  (reaches_runInv h).status.waitOk

/-- A child executes a child of its own and blocks for it, and then exits before its own
    parent waits. -/
def nestedTrace : List Label :=
  [.execute 0 true (some 2) (some 0), .execute 2 true (some 3) (some 0), .wait 2 4, .advance 2, .advance 2,
    .advance 2, .advance 2, .exit 3 5 false, .advance 3, .advance 3, .advance 3, .advance 2,
    .exit 2 81 false, .advance 2, .advance 2, .wait 0 3, .advance 0]

theorem wait_returns_status_nested : ∃ s, Reaches step StatusOk boot s ∧
    s.log = [.waited 1 3 81, .exited 3 81, .waited 3 4 5, .exited 4 5, .executed 3 4, .executed 1 3] ∧
    WaitOk s.log := by
  obtain ⟨s, hs, hp⟩ := reaches_of_run step StatusOk boot nestedTrace
    (fun s => s.log == [.waited 1 3 81, .exited 3 81, .waited 3 4 5, .exited 4 5, .executed 3 4,
      .executed 1 3]) (by decide)
  exact ⟨s, hs, by simpa using hp, wait_returns_status hs⟩

theorem reaches_log (ls : List Label)
    (h : (runList step anyStep boot ls).map (fun s => s.log == L) = some true) (hw : ¬ WaitOk L) :
    ∃ s, Reaches step anyStep boot s ∧ s.log = L ∧ ¬ WaitOk s.log := by
  obtain ⟨s, hs, hp⟩ := reaches_of_run step anyStep boot ls (fun s => s.log == L) h
  have hL : s.log = L := by simpa using hp
  exact ⟨s, hs, hL, by rwa [hL]⟩

/-- A second wait returns the status once more, a wait for the second child the status of the
    first, and a wait for a child that was killed what its record held before. -/
theorem wait_returns_other_status :
    (∃ s, Reaches step anyStep boot s ∧
      s.log = [.waited 1 3 81, .waited 1 3 81, .exited 3 81, .executed 1 3] ∧ ¬ WaitOk s.log) ∧
    (∃ s, Reaches step anyStep boot s ∧
      s.log = [.waited 1 4 81, .exited 4 82, .exited 3 81, .executed 1 4, .executed 1 3] ∧
      ¬ WaitOk s.log) ∧
    (∃ s, Reaches step anyStep boot s ∧
      s.log = [.waited 1 3 7, .killed 3, .executed 1 3] ∧ ¬ WaitOk s.log) := by
  refine ⟨reaches_log
      [.execute 0 true (some 2) (some 0), .exit 2 81 false, .advance 2, .advance 2,
        .wait 0 3, .advance 0, .wait 0 3, .advance 0] (by decide) ?_,
    reaches_log
      [.execute 0 true (some 2) (some 0), .execute 0 true (some 3) (some 0), .exit 2 81 false,
        .advance 2, .advance 2, .exit 3 82 false, .advance 3, .advance 3, .wait 0 4, .advance 0]
      (by decide) ?_,
    reaches_log [.execute 0 true (some 2) (some 7), .kill 2, .advance 2, .advance 2, .wait 0 3, .advance 0]
      (by decide) ?_⟩ <;> simp [WaitOk, Returns, Owed, exitStatus]

end Pintos
