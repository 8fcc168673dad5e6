/-
  Calls with critical sections.

  Threads make calls on a shared state.  A call is a part that is not interrupted, and then a program that
  others may interrupt; if the call `locks`, a semaphore guards this program: it is taken before and given
  back behind it.
-/
import Pintos.Lib.Co
import Pintos.Lib.Simulation
import Pintos.Lib.Steps
import Pintos.Synch.Semaphore

namespace Pintos.Conc

open Lib Synch Prog Function List

variable {σ ε τ κ ρ γ : Type}

structure Service (σ ε τ κ ρ : Type) where
  threads : List τ
  /-- the calls that threads make -/
  may : τ → κ → Bool
  /-- a call up to the program, or as a whole -/
  enter : τ → κ → Prog σ ε (ρ ⊕ Co σ ε ρ)
  locks : κ → Bool

/-- Where a thread is. -/
inductive CallPc (σ ε κ ρ : Type) where
  /-- in no call -/
  | outside
  /-- in `sema_down`, about to test the value, and blocked there -/
  | down (k : κ) (c : Co σ ε ρ)
  | blocked (k : κ) (c : Co σ ε ρ)
  /-- with `c` left to do -/
  | inside (k : κ) (c : Co σ ε ρ)
  /-- about to call `sema_up` -/
  | up (k : κ) (ret : ρ)

structure Calls (σ ε τ κ ρ : Type) where
  state : σ
  sema : Semaphore τ
  pc : τ → CallPc σ ε κ ρ
  /-- the calls of each thread that have returned, with their results -/
  history : τ → List (κ × ρ)

namespace Calls

def boot (state : σ) : Calls σ ε τ κ ρ := ⟨state, .init 1, fun _ => .outside, fun _ => []⟩

def setState (s : Calls σ ε τ κ ρ) (state : σ) : Calls σ ε τ κ ρ := { s with state }

def setSema (s : Calls σ ε τ κ ρ) (sema : Semaphore τ) : Calls σ ε τ κ ρ := { s with sema }

variable [DecidableEq τ]

def setPc (s : Calls σ ε τ κ ρ) (t : τ) (p : CallPc σ ε κ ρ) : Calls σ ε τ κ ρ :=
  { s with pc := update s.pc t p }

/-- The call of a thread returns. -/
def return_ (s : Calls σ ε τ κ ρ) (t : τ) (k : κ) (ret : ρ) : Calls σ ε τ κ ρ :=
  { s with pc := update s.pc t .outside, history := update s.history t (s.history t ++ [(k, ret)]) }

/-- `thread_unblock` of the thread that `sema_up` found; it asserts that the thread is blocked. -/
def unblock (s : Calls σ ε τ κ ρ) : Option τ → Option (Calls σ ε τ κ ρ)
  | none => some s
  | some t =>
    match s.pc t with
    | .blocked k c => some (s.setPc t (.down k c))
    | _ => none

/-- A call begins. -/
def call (s : Calls σ ε τ κ ρ) (sv : Service σ ε τ κ ρ) (t : τ) (k : κ) : Option (Calls σ ε τ κ ρ) :=
  match s.pc t with
  | .outside =>
    if t ∈ sv.threads ∧ sv.may t k then
      match (sv.enter t k).run s.state with
      | .ok (.inl ret, state) => some ((s.setState state).return_ t k ret)
      | .ok (.inr c, state) => some ((s.setState state).setPc t (if sv.locks k then .down k c else .inside k c))
      | .error _ => none
    else none
  | _ => none

/-- A pass of the loop of `sema_down`. -/
def down (s : Calls σ ε τ κ ρ) (t : τ) : Option (Calls σ ε τ κ ρ) :=
  match s.pc t with
  | .down k c =>
    let r := s.sema.down t
    some ((s.setSema r.1).setPc t (if r.2 then .inside k c else .blocked k c))
  | _ => none

/-- A program goes on to where others may run. -/
def go (s : Calls σ ε τ κ ρ) (sv : Service σ ε τ κ ρ) (t : τ) : Option (Calls σ ε τ κ ρ) :=
  match s.pc t with
  | .inside k c =>
    match c.resume s.state with
    | .done ret state =>
      some (if sv.locks k then (s.setState state).setPc t (.up k ret) else (s.setState state).return_ t k ret)
    | .paused c state => some ((s.setState state).setPc t (.inside k c))
    | .failed _ => none
  | _ => none

/-- `sema_up`, and the return of the call. -/
def up (s : Calls σ ε τ κ ρ) (t : τ) : Option (Calls σ ε τ κ ρ) :=
  match s.pc t with
  | .up k ret =>
    let r := s.sema.up
    ((s.setSema r.1).return_ t k ret).unblock r.2
  | _ => none

end Calls

inductive CallLabel (τ κ : Type) where
  | call (t : τ) (k : κ)
  | down (t : τ)
  | go (t : τ)
  | up (t : τ)

/-- A call that was made, with its result. -/
structure Made (τ κ ρ : Type) where
  t : τ
  k : κ
  ret : ρ

namespace Service

/-- One step; a panic is none. -/
def step [DecidableEq τ] (sv : Service σ ε τ κ ρ) (s : Calls σ ε τ κ ρ) : CallLabel τ κ → Option (Calls σ ε τ κ ρ)
  | .call t k => s.call sv t k
  | .down t => s.down t
  | .go t => s.go sv t
  | .up t => s.up t

/-- The whole call, when it is not interrupted. -/
def whole (sv : Service σ ε τ κ ρ) (t : τ) (k : κ) : Prog σ ε ρ := do
  let r ← sv.enter t k
  match r with
  | .inl ret => pure ret
  | .inr c => c.run

/-- A call that is made alone. -/
def Alone (sv : Service σ ε τ κ ρ) (s : σ) (m : Made τ κ ρ) (s' : σ) : Prop := (sv.whole m.t m.k).run s = .ok (m.ret, s')

/-- The call that a thread is in does not stand in the way of the call `k`: both lock. -/
def beside (sv : Service σ ε τ κ ρ) (k : κ) : CallPc σ ε κ ρ → Bool
  | .outside => true
  | .down k' _ | .blocked k' _ | .inside k' _ | .up k' _ => sv.locks k && sv.locks k'

/-- Calls overlap only where both lock. -/
def Apart (sv : Service σ ε τ κ ρ) (s : Calls σ ε τ κ ρ) : CallLabel τ κ → Prop
  | .call _ k => ∀ t ∈ sv.threads, sv.beside k (s.pc t) = true
  | _ => True

instance (sv : Service σ ε τ κ ρ) (s : Calls σ ε τ κ ρ) (l : CallLabel τ κ) : Decidable (sv.Apart s l) := by
  cases l with
  | call t k => exact inferInstanceAs (Decidable (∀ t ∈ sv.threads, sv.beside k (s.pc t) = true))
  | _ => exact isTrue trivial

/-- What a call that locks does before the semaphore depends on what `view` sees only, and its
    program does not change that. -/
structure Steady (sv : Service σ ε τ κ ρ) (view : σ → γ) : Prop where
  enter : ∀ {t k s r s'}, sv.locks k = true → (sv.enter t k).run s = .ok (r, s') →
    ∀ u, view u = view s → (sv.enter t k).run u = .ok (r, u)
  keeps : ∀ {t k s c s'}, sv.locks k = true → (sv.enter t k).run s = .ok (.inr c, s') → c.Keeps view

end Service

/-- The calls of a thread in an order of calls. -/
def callsOf [DecidableEq τ] (order : List (Made τ κ ρ)) (t : τ) : List (κ × ρ) :=
  (order.filter (·.t = t)).map fun m => (m.k, m.ret)

/-! ## The order of the calls -/

namespace CallPc

/-- The thread is in its program, or has not given the semaphore back. -/
def holds : CallPc σ ε κ ρ → Bool
  | inside _ _ | up _ _ => true
  | _ => false

/-- A call that has done its work and has not returned. -/
def pending : CallPc σ ε κ ρ → List (κ × ρ)
  | up k ret => [(k, ret)]
  | _ => []

end CallPc

variable [DecidableEq τ] {sv : Service σ ε τ κ ρ} {view : σ → γ} {s s' : Calls σ ε τ κ ρ} {s0 : σ} {t : τ} {k : κ}
  {c : Co σ ε ρ} {ret : ρ}

/-- Who is in its program, where `last` is the state behind the last call that did its work. -/
inductive Holder (sv : Service σ ε τ κ ρ) (view : σ → γ) (last : σ) (s : Calls σ ε τ κ ρ) : Prop
  | free : s.sema.value = 1 → (∀ t, (s.pc t).holds = false) → s.state = last → Holder sv view last s
  | locked {t : τ} {k : κ} {c : Co σ ε ρ} : s.sema.value = 0 → s.pc t = .inside k c → sv.locks k = true →
      (∀ t', t' ≠ t → (s.pc t').holds = false) → c.Keeps view → view s.state = view last →
      (∀ ret u, c.run.run s.state = .ok (ret, u) → sv.Alone last ⟨t, k, ret⟩ u) → Holder sv view last s
  | up {t : τ} {k : κ} {ret : ρ} : s.sema.value = 0 → s.pc t = .up k ret → sv.locks k = true →
      (∀ t', t' ≠ t → (s.pc t').holds = false) → s.state = last → Holder sv view last s
  | alone {t : τ} {k : κ} {c : Co σ ε ρ} : s.sema.value = 1 → s.pc t = .inside k c → sv.locks k = false →
      (∀ t', t' ≠ t → s.pc t' = .outside) →
      (∀ ret u, c.run.run s.state = .ok (ret, u) → sv.Alone last ⟨t, k, ret⟩ u) → Holder sv view last s

/-- A call that waits for the semaphore. -/
structure Waits (sv : Service σ ε τ κ ρ) (view : σ → γ) (state : σ) (t : τ) (k : κ) (c : Co σ ε ρ) : Prop where
  locks : sv.locks k = true
  keeps : c.Keeps view
  enter : ∀ u, view u = view state → (sv.enter t k).run u = .ok (.inr c, u)

structure SerialInv (sv : Service σ ε τ κ ρ) (view : σ → γ) (s0 : σ) (s : Calls σ ε τ κ ρ) (order : List (Made τ κ ρ))
    (last : σ) : Prop where
  runs : Runs sv.Alone s0 order last
  calls : ∀ t, callsOf order t = s.history t ++ (s.pc t).pending
  threads : ∀ t, s.pc t ≠ .outside → t ∈ sv.threads
  waits : ∀ {t k c}, s.pc t = .down k c ∨ s.pc t = .blocked k c → Waits sv view s.state t k c
  holder : Holder sv view last s

theorem serialInv_boot (sv : Service σ ε τ κ ρ) (view : σ → γ) (s0 : σ) : SerialInv sv view s0 (.boot s0) [] s0 where
  runs := .nil
  calls _ := rfl
  threads _ h := absurd rfl h
  waits h := by rcases h with h | h <;> cases h
  holder := .free rfl (fun _ => rfl) rfl

theorem callsOf_snoc (order : List (Made τ κ ρ)) (m : Made τ κ ρ) (t : τ) :
    callsOf (order ++ [m]) t = callsOf order t ++ if m.t = t then [(m.k, m.ret)] else [] := by
  unfold callsOf
  rw [filter_append, map_append]
  split_ifs with h
  · rw [filter_cons_of_pos (by simpa using h)]
    rfl
  · rw [filter_cons_of_neg (by simpa using h)]
    rfl

theorem pc_setPc (s : Calls σ ε τ κ ρ) (t t' : τ) (p : CallPc σ ε κ ρ) :
    (s.setPc t p).pc t' = if t' = t then p else s.pc t' := update_apply ..

theorem pc_return (s : Calls σ ε τ κ ρ) (t t' : τ) (k : κ) (ret : ρ) :
    (s.return_ t k ret).pc t' = if t' = t then .outside else s.pc t' := update_apply ..

theorem history_return (s : Calls σ ε τ κ ρ) (t t' : τ) (k : κ) (ret : ρ) :
    (s.return_ t k ret).history t' = s.history t' ++ if t = t' then [(k, ret)] else [] := by
  change update s.history t (s.history t ++ [(k, ret)]) t' = _
  rw [update_apply]
  split_ifs with h h' h'
  · rw [h]
  · exact absurd h.symm h'
  · exact absurd h'.symm h
  · rw [append_nil]

namespace Holder

variable {last : σ}

omit [DecidableEq τ] in
theorem congr (h : Holder sv view last s) (hstate : s'.state = s.state) (hv : s'.sema.value = s.sema.value)
    (hholds : ∀ t, (s'.pc t).holds = (s.pc t).holds) (hpc : ∀ t, (s.pc t).holds = true → s'.pc t = s.pc t)
    (hout : ∀ t, s.pc t = .outside → s'.pc t = .outside ∨ ∀ t' k c, s.pc t' = .inside k c → sv.locks k = true) :
    Holder sv view last s' := by
  cases h with
  | free hv' hno hlast => exact .free (hv.trans hv') (fun t' => (hholds t').trans (hno t')) (hstate.trans hlast)
  | locked hv' hpc' hlocks hno hkeeps hview hrun =>
    exact .locked (hv.trans hv') ((hpc _ (by rw [hpc']; rfl)).trans hpc') hlocks (fun t' ht' => (hholds t').trans (hno t' ht'))
      hkeeps (hstate ▸ hview) (hstate ▸ hrun)
  | up hv' hpc' hlocks hno hlast =>
    exact .up (hv.trans hv') ((hpc _ (by rw [hpc']; rfl)).trans hpc') hlocks (fun t' ht' => (hholds t').trans (hno t' ht'))
      (hstate.trans hlast)
  | @alone t k c hv' hpc' hlocks hno hrun =>
    refine .alone (hv.trans hv') ((hpc _ (by rw [hpc']; rfl)).trans hpc') hlocks (fun t' ht' => ?_) (hstate ▸ hrun)
    rcases hout t' (hno t' ht') with h | h
    · exact h
    · rw [h t k c hpc'] at hlocks
      cases hlocks

theorem unique {t1 : τ} (hno : ∀ t', t' ≠ t1 → (s.pc t').holds = false) (ht : (s.pc t).holds = true) : t = t1 := by
  by_contra hne
  rw [hno t hne] at ht
  cases ht

theorem of_inside (h : Holder sv view last s) (hpc : s.pc t = .inside k c) :
    (∀ ret u, c.run.run s.state = .ok (ret, u) → sv.Alone last ⟨t, k, ret⟩ u) ∧
    (sv.locks k = true ∧ s.sema.value = 0 ∧ (∀ t', t' ≠ t → (s.pc t').holds = false) ∧ c.Keeps view ∧
        view s.state = view last ∨
      sv.locks k = false ∧ s.sema.value = 1 ∧ ∀ t', t' ≠ t → s.pc t' = .outside) := by
  have hholds : (s.pc t).holds = true := by rw [hpc]; rfl
  cases h with
  | free _ hno => rw [hno t] at hholds; cases hholds
  | @locked t1 k1 c1 hv hpc1 hlocks hno hkeeps hview hrun =>
    obtain rfl := unique hno hholds
    rw [hpc] at hpc1
    obtain ⟨rfl, rfl⟩ := CallPc.inside.inj hpc1
    exact ⟨hrun, .inl ⟨hlocks, hv, hno, hkeeps, hview⟩⟩
  | @up t1 k1 ret1 hv hpc1 hlocks hno hlast =>
    obtain rfl := unique hno hholds
    rw [hpc] at hpc1
    cases hpc1
  | @alone t1 k1 c1 hv hpc1 hlocks hno hrun =>
    obtain rfl := unique (fun t' ht' => by rw [hno t' ht']; rfl) hholds
    rw [hpc] at hpc1
    obtain ⟨rfl, rfl⟩ := CallPc.inside.inj hpc1
    exact ⟨hrun, .inr ⟨hlocks, hv, hno⟩⟩

theorem of_up (h : Holder sv view last s) (hpc : s.pc t = .up k ret) :
    sv.locks k = true ∧ s.sema.value = 0 ∧ (∀ t', t' ≠ t → (s.pc t').holds = false) ∧ s.state = last := by
  have hholds : (s.pc t).holds = true := by rw [hpc]; rfl
  cases h with
  | free _ hno => rw [hno t] at hholds; cases hholds
  | @locked t1 k1 c1 hv hpc1 hlocks hno =>
    obtain rfl := unique hno hholds
    rw [hpc] at hpc1
    cases hpc1
  | @up t1 k1 ret1 hv hpc1 hlocks hno hlast =>
    obtain rfl := unique hno hholds
    rw [hpc] at hpc1
    obtain ⟨rfl, rfl⟩ := CallPc.up.inj hpc1
    exact ⟨hlocks, hv, hno, hlast⟩
  | @alone t1 k1 c1 hv hpc1 hlocks hno =>
    obtain rfl := unique (fun t' ht' => by rw [hno t' ht']; rfl) hholds
    rw [hpc] at hpc1
    cases hpc1

omit [DecidableEq τ] in
theorem view_eq (h : Holder sv view last s) (hlocks : ∀ t k c, s.pc t = .inside k c → sv.locks k = true) :
    view s.state = view last := by
  cases h with
  | free _ _ hlast => rw [hlast]
  | locked _ _ _ _ _ hview => exact hview
  | up _ _ _ _ hlast => rw [hlast]
  | alone _ hpc hno =>
    rw [hlocks _ _ _ hpc] at hno
    cases hno

end Holder

theorem pending_of_not_holds {p : CallPc σ ε κ ρ} (h : p.holds = false) : p.pending = [] := by
  cases p with
  | up => cases h
  | _ => rfl

namespace SerialInv

variable {order order' : List (Made τ κ ρ)} {last last' u : σ} {p : CallPc σ ε κ ρ}

section

variable (h : SerialInv sv view s0 s order last)
include h

theorem moved (ht : t ∈ sv.threads) (hruns : Runs sv.Alone s0 order' last')
    (hother : ∀ t', t' ≠ t → s'.pc t' = s.pc t' ∧ s'.history t' = s.history t' ∧ callsOf order' t' = callsOf order t')
    (hcalls : callsOf order' t = s'.history t ++ (s'.pc t).pending)
    (hwaits : ∀ {k c}, s'.pc t = .down k c ∨ s'.pc t = .blocked k c → Waits sv view s'.state t k c)
    (hview : view s'.state = view s.state ∨ ∀ t', t' ≠ t → s.pc t' = .outside) (hholder : Holder sv view last' s') :
    SerialInv sv view s0 s' order' last' := by
  refine ⟨hruns, fun t' => ?_, fun t' ht' => ?_, fun {t' k' c'} hw => ?_, hholder⟩
  · by_cases he : t' = t
    · exact he ▸ hcalls
    · obtain ⟨hp, hh, ho⟩ := hother t' he
      rw [ho, hh, hp, h.calls]
  · by_cases he : t' = t
    · exact he ▸ ht
    · rw [(hother t' he).1] at ht'
      exact h.threads t' ht'
  · by_cases he : t' = t
    · subst he
      exact hwaits hw
    · rw [(hother t' he).1] at hw
      rcases hview with hview | hall
      · obtain ⟨hl, hk, hen⟩ := h.waits hw
        exact ⟨hl, hk, fun u hu => hen u (hu.trans hview)⟩
      · rw [hall t' he] at hw
        rcases hw with hw | hw <;> cases hw

theorem wait (ht : t ∈ sv.threads) (hno : (s.pc t).holds = false)
    (hp : p = .down k c ∨ p = .blocked k c) (hw : Waits sv view s.state t k c)
    (hout : s.pc t = .outside → ∀ t' k c, s.pc t' = .inside k c → sv.locks k = true) :
    SerialInv sv view s0 (s.setPc t p) order last := by
  have hpno : p.holds = false := by rcases hp with rfl | rfl <;> rfl
  have hpc : ∀ t', (s.setPc t p).pc t' = if t' = t then p else s.pc t' := fun t' => pc_setPc s t t' p
  refine h.moved ht h.runs (fun t' he => ⟨(hpc t').trans (if_neg he), rfl, rfl⟩) ?_ (fun {k' c'} hw' => ?_) (.inl rfl) ?_
  · rw [h.calls, hpc, if_pos rfl, pending_of_not_holds hno, pending_of_not_holds hpno]
    rfl
  · rw [hpc, if_pos rfl] at hw'
    have hk : k' = k ∧ c' = c := by
      rcases hp with rfl | rfl <;> rcases hw' with hw' | hw' <;> cases hw' <;> exact ⟨rfl, rfl⟩
    rwa [hk.1, hk.2]
  · refine h.holder.congr rfl rfl (fun t' => ?_) (fun t' ht' => ?_) fun t' ht' => ?_
    · rw [hpc]
      split_ifs with he
      · rw [he, hno, hpno]
      · rfl
    · rw [hpc, if_neg]
      rintro rfl
      rw [hno] at ht'
      cases ht'
    · rw [hpc]
      split_ifs with he
      · exact .inr (hout (he ▸ ht'))
      · exact .inl ht'

theorem returned (ht : t ∈ sv.threads) (hruns : Runs sv.Alone s0 order' last')
    (hs : s'.pc = s.pc ∧ s'.history = s.history)
    (hcalls : ∀ t', callsOf order' t' = s.history t' ++ if t = t' then [(k, ret)] else (s.pc t').pending)
    (hview : view s'.state = view s.state ∨ ∀ t', t' ≠ t → s.pc t' = .outside)
    (hholder : Holder sv view last' (s'.return_ t k ret)) : SerialInv sv view s0 (s'.return_ t k ret) order' last' := by
  refine h.moved ht hruns (fun t' he => ⟨?_, ?_, ?_⟩) ?_ (fun {k' c'} hw => ?_) hview hholder
  · rw [pc_return, if_neg he, hs.1]
  · rw [history_return, if_neg (Ne.symm he), hs.2, append_nil]
  · rw [hcalls, if_neg (Ne.symm he), h.calls]
  · rw [hcalls, history_return, pc_return, if_pos rfl, if_pos rfl, if_pos rfl, hs.2]
    exact (append_nil _).symm
  · rw [pc_return, if_pos rfl] at hw
    rcases hw with hw | hw <;> cases hw

theorem callsOf_append (hno : (s.pc t).pending = []) (k : κ) (ret : ρ) (t' : τ) :
    callsOf (order ++ [⟨t, k, ret⟩]) t' = s.history t' ++ if t = t' then [(k, ret)] else (s.pc t').pending := by
  rw [callsOf_snoc, h.calls]
  split_ifs with he
  · rw [← he, hno, append_nil]
  · exact append_nil _

theorem alone (ht : t ∈ sv.threads) (hk : sv.locks k = false)
    (hall : ∀ t', t' ≠ t → s.pc t' = .outside) (hno : (s.pc t).pending = []) (hv : s.sema.value = 1)
    (hrun : ∀ ret w, c.run.run u = .ok (ret, w) → sv.Alone last ⟨t, k, ret⟩ w) :
    SerialInv sv view s0 ((s.setState u).setPc t (.inside k c)) order last := by
  have hpc : ∀ t', ((s.setState u).setPc t (.inside k c)).pc t' = if t' = t then .inside k c else s.pc t' :=
    fun t' => pc_setPc _ t t' _
  refine h.moved ht h.runs (fun t' he => ⟨(hpc t').trans (if_neg he), rfl, rfl⟩) ?_ (fun {k' c'} hw => ?_) (.inr hall) ?_
  · rw [h.calls, hpc, if_pos rfl, hno]
    rfl
  · rw [hpc, if_pos rfl] at hw
    rcases hw with hw | hw <;> cases hw
  · exact .alone hv ((hpc t).trans (if_pos rfl)) hk (fun t' he => ((hpc t').trans (if_neg he)).trans (hall t' he)) hrun

theorem alone_returned (ht : t ∈ sv.threads)
    (hall : ∀ t', t' ≠ t → s.pc t' = .outside) (hno : (s.pc t).pending = []) (hv : s.sema.value = 1)
    (ha : sv.Alone last ⟨t, k, ret⟩ u) :
    SerialInv sv view s0 ((s.setState u).return_ t k ret) (order ++ [⟨t, k, ret⟩]) u := by
  refine h.returned ht (h.runs.snoc ha) ⟨rfl, rfl⟩ (h.callsOf_append hno _ _) (.inr hall) (.free hv (fun t' => ?_) rfl)
  rw [pc_return]
  split_ifs with he
  · rfl
  · change (s.pc t').holds = false
    rw [hall t' he]
    rfl

theorem locked (ht : t ∈ sv.threads) (hk : sv.locks k = true)
    (hs : s'.pc = s.pc ∧ s'.history = s.history ∧ s'.sema.value = 0) (hothers : ∀ t', t' ≠ t → (s.pc t').holds = false)
    (hno : (s.pc t).pending = []) (hkeeps : c.Keeps view) (hview : view s'.state = view s.state)
    (hlast : view s'.state = view last)
    (hrun : ∀ ret w, c.run.run s'.state = .ok (ret, w) → sv.Alone last ⟨t, k, ret⟩ w) :
    SerialInv sv view s0 (s'.setPc t (.inside k c)) order last := by
  have hpc : ∀ t', (s'.setPc t (.inside k c)).pc t' = if t' = t then .inside k c else s.pc t' :=
    fun t' => hs.1 ▸ pc_setPc s' t t' _
  refine h.moved ht h.runs (fun t' he => ⟨(hpc t').trans (if_neg he), congrFun hs.2.1 t', rfl⟩) ?_ (fun {k' c'} hw => ?_)
    (.inl hview) ?_
  · rw [h.calls, hpc, if_pos rfl, hno]
    exact congrArg (· ++ _) (congrFun hs.2.1 t).symm
  · rw [hpc, if_pos rfl] at hw
    rcases hw with hw | hw <;> cases hw
  · refine .locked hs.2.2 ((hpc t).trans (if_pos rfl)) hk (fun t' he => ?_) hkeeps hlast hrun
    rw [hpc, if_neg he]
    exact hothers t' he

theorem finished (ht : t ∈ sv.threads) (hpc : s.pc t = .inside k c)
    (hk : sv.locks k = true) (hv : s.sema.value = 0) (hothers : ∀ t', t' ≠ t → (s.pc t').holds = false)
    (hview : view u = view s.state) (ha : sv.Alone last ⟨t, k, ret⟩ u) :
    SerialInv sv view s0 ((s.setState u).setPc t (.up k ret)) (order ++ [⟨t, k, ret⟩]) u := by
  have hpc' : ∀ t', ((s.setState u).setPc t (.up k ret)).pc t' = if t' = t then .up k ret else s.pc t' :=
    fun t' => pc_setPc _ t t' _
  have hcalls := h.callsOf_append (by rw [hpc]; rfl) k ret
  refine h.moved ht (h.runs.snoc ha) (fun t' he => ⟨(hpc' t').trans (if_neg he), rfl, ?_⟩) ?_ (fun {k' c'} hw => ?_)
    (.inl hview) ?_
  · rw [hcalls, if_neg (Ne.symm he), h.calls]
  · rw [hcalls, hpc', if_pos rfl, if_pos rfl]
    rfl
  · rw [hpc', if_pos rfl] at hw
    rcases hw with hw | hw <;> cases hw
  · refine .up hv ((hpc' t).trans (if_pos rfl)) hk (fun t' he => ?_) rfl
    rw [hpc', if_neg he]
    exact hothers t' he

theorem setWaiters (waiters : List τ) :
    SerialInv sv view s0 (s.setSema ⟨s.sema.value, waiters⟩) order last :=
  ⟨h.runs, h.calls, h.threads, h.waits, h.holder.congr rfl rfl (fun _ => rfl) (fun _ _ => rfl) fun _ => .inl⟩

theorem unblock {o : Option τ} (hs : s.unblock o = some s') :
    SerialInv sv view s0 s' order last := by
  cases o with
  | none =>
    cases hs
    exact h
  | some t =>
    unfold Calls.unblock at hs
    dsimp only at hs
    cases hpc : s.pc t with
    | blocked k c =>
      rw [hpc] at hs
      cases hs
      refine h.wait (h.threads t ?_) ?_ (.inl rfl) (h.waits (.inr hpc)) fun ho => ?_
      · rw [hpc]
        exact nofun
      · rw [hpc]
        rfl
      · rw [hpc] at ho
        cases ho
    | _ => rw [hpc] at hs; cases hs

end

end SerialInv

/-! ## The steps -/

variable {order : List (Made τ κ ρ)} {last : σ}

omit [DecidableEq τ] in
theorem whole_of_inl {u : σ} (h : (sv.enter t k).run s0 = .ok (.inl ret, u)) : sv.Alone s0 ⟨t, k, ret⟩ u := by
  unfold Service.Alone Service.whole
  rw [run_bind_ok h]
  rfl

omit [DecidableEq τ] in
theorem whole_of_inr {u w : σ} (h : (sv.enter t k).run s0 = .ok (.inr c, u)) (hc : c.run.run u = .ok (ret, w)) :
    sv.Alone s0 ⟨t, k, ret⟩ w := by
  unfold Service.Alone Service.whole
  rwa [run_bind_ok h]

theorem call_locks {r : ρ ⊕ Co σ ε ρ} {u : σ} (hsv : sv.Steady view) (h : SerialInv sv view s0 s order last)
    (ht : t ∈ sv.threads) (hpc : s.pc t = .outside) (hk : sv.locks k = true)
    (hin : ∀ t' k c, s.pc t' = .inside k c → sv.locks k = true) (hrun : (sv.enter t k).run s.state = .ok (r, u)) :
    u = s.state ∧ match r with
      | .inl ret => SerialInv sv view s0 (s.return_ t k ret) (order ++ [⟨t, k, ret⟩]) last
      | .inr c => SerialInv sv view s0 (s.setPc t (.down k c)) order last := by
  have hu := hsv.enter hk hrun
  have hstate := hu s.state rfl
  rw [hrun] at hstate
  refine ⟨(ok_inj hstate).2, ?_⟩
  cases r with
  | inl ret =>
    have hlast := hu last (h.holder.view_eq hin).symm
    refine h.returned ht (h.runs.snoc (whole_of_inl hlast)) ⟨rfl, rfl⟩ (h.callsOf_append (by rw [hpc]; rfl) _ _) (.inl rfl) ?_
    have hpc' : ∀ t', (s.return_ t k ret).pc t' = s.pc t' := by
      intro t'
      rw [pc_return]
      split_ifs with he
      · rw [he, hpc]
      · rfl
    exact h.holder.congr rfl rfl (fun t' => by rw [hpc']) (fun t' _ => hpc' t') fun t' ho => .inl ((hpc' t').trans ho)
  | inr c =>
    exact h.wait ht (by rw [hpc]; rfl) (.inl rfl) ⟨hk, hsv.keeps hk hrun, hu⟩ fun _ => hin

theorem apart_call (h : SerialInv sv view s0 s order last) (ha : sv.Apart s (.call t k)) :
    if sv.locks k then ∀ t' k' c, s.pc t' = .inside k' c → sv.locks k' = true else ∀ t', s.pc t' = .outside := by
  have hbeside : ∀ t', s.pc t' ≠ .outside → sv.beside k (s.pc t') = true := fun t' ho => ha t' (h.threads t' ho)
  split_ifs with hk
  · intro t' k' c hpc
    have := hbeside t' (by rw [hpc]; exact nofun)
    rw [hpc] at this
    exact (Bool.and_eq_true_iff.1 this).2
  · intro t'
    by_contra ho
    have := hbeside t' ho
    cases hpc : s.pc t' with
    | outside => exact ho hpc
    | _ => rw [hpc] at this; exact hk (Bool.and_eq_true_iff.1 this).1

theorem call_serialInv (hsv : sv.Steady view) (h : SerialInv sv view s0 s order last) (ha : sv.Apart s (.call t k))
    (hstep : s.call sv t k = some s') : ∃ order last, SerialInv sv view s0 s' order last := by
  have hapart := apart_call h ha
  unfold Calls.call at hstep
  cases hpc : s.pc t with
  | outside =>
    have hno : (s.pc t).pending = [] := by rw [hpc]; rfl
    rw [hpc] at hstep
    by_cases hmay : t ∈ sv.threads ∧ sv.may t k
    · rw [if_pos hmay] at hstep
      cases hrun : (sv.enter t k).run s.state with
      | error e => rw [hrun] at hstep; cases hstep
      | ok r =>
        obtain ⟨r, u⟩ := r
        rw [hrun] at hstep
        cases hk : sv.locks k with
        | true =>
          rw [hk] at hapart
          obtain ⟨rfl, hr⟩ := call_locks hsv h hmay.1 hpc hk hapart hrun
          cases r with
          | inl ret =>
            cases hstep
            exact ⟨_, _, hr⟩
          | inr c =>
            cases hstep
            rw [if_pos hk]
            exact ⟨_, _, hr⟩
        | false =>
          have hk' : ¬sv.locks k = true := by rw [hk]; exact Bool.false_ne_true
          rw [if_neg hk'] at hapart
          have hfree : s.sema.value = 1 ∧ s.state = last := by
            cases h.holder with
            | free hv _ hlast => exact ⟨hv, hlast⟩
            | locked _ hpc' | up _ hpc' | alone _ hpc' => rw [hapart] at hpc'; cases hpc'
          rw [hfree.2] at hrun
          cases r with
          | inl ret =>
            cases hstep
            exact ⟨_, _, h.alone_returned hmay.1 (fun t' _ => hapart t') hno hfree.1 (whole_of_inl hrun)⟩
          | inr c =>
            cases hstep
            rw [if_neg hk']
            exact ⟨_, _, h.alone hmay.1 hk (fun t' _ => hapart t') hno hfree.1 fun _ _ => whole_of_inr hrun⟩
    · rw [if_neg hmay] at hstep
      cases hstep
  | _ => rw [hpc] at hstep; cases hstep

section

variable (h : SerialInv sv view s0 s order last)
include h

theorem down_serialInv (hstep : s.down t = some s') :
    SerialInv sv view s0 s' order last := by
  unfold Calls.down at hstep
  cases hpc : s.pc t with
  | down k c =>
    have ht : t ∈ sv.threads := h.threads t (by rw [hpc]; exact nofun)
    have hw := h.waits (.inl hpc)
    rw [hpc] at hstep
    cases hstep
    by_cases hv : s.sema.value = 0
    · rw [show s.sema.down t = (⟨s.sema.value, s.sema.waiters ++ [t]⟩, false) from if_pos hv]
      refine (h.setWaiters (s.sema.waiters ++ [t])).wait ht ?_ (.inr rfl) hw fun ho => ?_
      · change (s.pc t).holds = false
        rw [hpc]
        rfl
      · change s.pc t = .outside at ho
        rw [hpc] at ho
        cases ho
    · rw [show s.sema.down t = (⟨s.sema.value - 1, s.sema.waiters⟩, true) from if_neg hv]
      cases h.holder with
      | free hv' hno hlast =>
        refine h.locked ht hw.locks ⟨rfl, rfl, ?_⟩ (fun t' _ => hno t') (by rw [hpc]; rfl) hw.keeps rfl ?_ fun _ _ hc => ?_
        · change s.sema.value - 1 = 0
          omega
        · exact congrArg view hlast
        · exact whole_of_inr (hw.enter last (congrArg view hlast).symm) (hlast ▸ hc)
      | locked hv' | up hv' => exact absurd hv' hv
      | @alone t1 _ _ _ hpc' _ hno =>
        have hne : t ≠ t1 := by
          rintro rfl
          rw [hpc] at hpc'
          cases hpc'
        rw [hno t hne] at hpc
        cases hpc
  | _ => rw [hpc] at hstep; cases hstep

theorem go_serialInv (hstep : s.go sv t = some s') :
    ∃ order last, SerialInv sv view s0 s' order last := by
  unfold Calls.go at hstep
  cases hpc : s.pc t with
  | inside k c =>
    have ht : t ∈ sv.threads := h.threads t (by rw [hpc]; exact nofun)
    have hno : (s.pc t).pending = [] := by rw [hpc]; rfl
    obtain ⟨hrun, hcase⟩ := h.holder.of_inside hpc
    rw [Co.run_of_resume] at hrun
    rw [hpc] at hstep
    dsimp only at hstep
    cases hres : c.resume s.state with
    | failed e => rw [hres] at hstep; cases hstep
    | done ret u =>
      rw [hres] at hstep hrun
      cases hstep
      rcases hcase with ⟨hk, hv, hothers, hkeeps, hview⟩ | ⟨hk, hv, hall⟩
      · rw [if_pos hk]
        exact ⟨_, _, h.finished ht hpc hk hv hothers (hkeeps.of_done hres) (hrun _ _ rfl)⟩
      · rw [if_neg (by rw [hk]; exact Bool.false_ne_true)]
        exact ⟨_, _, h.alone_returned ht hall hno hv (hrun _ _ rfl)⟩
    | paused c' u =>
      rw [hres] at hstep hrun
      cases hstep
      rcases hcase with ⟨hk, hv, hothers, hkeeps, hview⟩ | ⟨hk, hv, hall⟩
      · obtain ⟨hu, hkeeps'⟩ := hkeeps.of_paused hres
        exact ⟨_, _, h.locked ht hk ⟨rfl, rfl, hv⟩ hothers hno hkeeps' hu (hu.trans hview) hrun⟩
      · exact ⟨_, _, h.alone ht hk hall hno hv hrun⟩
  | _ => rw [hpc] at hstep; cases hstep

theorem up_serialInv (hstep : s.up t = some s') :
    SerialInv sv view s0 s' order last := by
  unfold Calls.up at hstep
  cases hpc : s.pc t with
  | up k ret =>
    have ht : t ∈ sv.threads := h.threads t (by rw [hpc]; exact nofun)
    obtain ⟨_, hv, hothers, hlast⟩ := h.holder.of_up hpc
    rw [hpc] at hstep
    have hup : s.sema.up.1.value = (s.sema.value + 1) % 2 ^ 32 := by
      unfold Semaphore.up
      cases s.sema.waiters <;> rfl
    have hreturned : SerialInv sv view s0 ((s.setSema s.sema.up.1).return_ t k ret) order last := by
      refine h.returned ht h.runs ⟨rfl, rfl⟩ (fun t' => ?_) (.inl rfl) (.free ?_ (fun t' => ?_) hlast)
      · rw [h.calls]
        split_ifs with he
        · rw [← he, hpc]
          rfl
        · rfl
      · exact hup.trans (by rw [hv]; rfl)
      · rw [pc_return]
        split_ifs with he
        · rfl
        · exact hothers t' he
    exact hreturned.unblock hstep
  | _ => rw [hpc] at hstep; cases hstep

end

theorem step_serialInv {l : CallLabel τ κ} (hsv : sv.Steady view) (h : ∃ order last, SerialInv sv view s0 s order last)
    (ha : sv.Apart s l) (hstep : sv.step s l = some s') : ∃ order last, SerialInv sv view s0 s' order last := by
  obtain ⟨order, last, h⟩ := h
  cases l with
  | call t k => exact call_serialInv hsv h ha hstep
  | down t => exact ⟨_, _, down_serialInv h hstep⟩
  | go t => exact go_serialInv h hstep
  | up t => exact ⟨_, _, up_serialInv h hstep⟩

/-- No thread is in its program. -/
def Calls.Quiet (s : Calls σ ε τ κ ρ) : Prop := ∀ t, (s.pc t).holds = false

/-- **Calls are serial.**  If calls overlap only where both lock, there is an order of the calls,
    which has the calls of every thread in the order in which it made them, such that each returns
    what it returned when they are made one after the other, and the last one leaves the state as it
    is while no thread is in its program. -/
theorem calls_serial (hsv : sv.Steady view) (h : Reaches sv.step sv.Apart (.boot s0) s) :
    ∃ order last, Runs sv.Alone s0 order last ∧
      (∀ t, s.history t <+: callsOf order t ∧ (s.pc t = .outside → callsOf order t = s.history t)) ∧
      (s.Quiet → s.state = last) := by
  obtain ⟨order, last, hinv⟩ := h.invariant
    ⟨_, _, serialInv_boot sv view s0⟩ fun _ _ _ ih ha hstep => step_serialInv hsv ih ha hstep
  refine ⟨order, last, hinv.runs, fun t => ⟨?_, fun ht => ?_⟩, fun hquiet => ?_⟩
  · rw [hinv.calls]
    exact prefix_append ..
  · rw [hinv.calls, ht]
    exact append_nil _
  · cases hinv.holder with
    | free _ _ hlast => exact hlast
    | up _ _ _ _ hlast => exact hlast
    | @locked t _ _ _ hpc =>
      have := hquiet t
      rw [hpc] at this
      cases this
    | @alone t _ _ _ hpc =>
      have := hquiet t
      rw [hpc] at this
      cases this

end Pintos.Conc
