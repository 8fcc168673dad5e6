/-
  Programs that give way to others.

  A program of `Co σ ε α` works on a shared state `σ`.  Where it has a `yield`, other programs may run
  before it goes on; what it does between two of them is one step of the system it is part of.
-/
import Pintos.Lib.Prog

namespace Lib

inductive Co (σ ε α : Type) where
  | ret (a : α)
  | fail (e : ε)
  /-- the next state and what is left to do, both for the state before -/
  | act (put : σ → σ) (next : σ → Co σ ε α)
  | yield (next : Co σ ε α)

namespace Co

variable {σ τ ε δ α β : Type}

protected def bind (x : Co σ ε α) (f : α → Co σ ε β) : Co σ ε β :=
  match x with
  | ret a => f a
  | fail e => fail e
  | act put next => act put fun s => (next s).bind f
  | yield next => yield (next.bind f)

instance : Monad (Co σ ε) where
  pure := ret
  bind := Co.bind

/-- The state that a part leaves; one that fails leaves it as it is. -/
def stateAfter (x : Prog σ ε α) (s : σ) : σ :=
  match x.run s with
  | .ok r => r.2
  | .error _ => s

/-- A part that is not interrupted. -/
def atomic (x : Prog σ ε α) : Co σ ε α :=
  act (stateAfter x) fun s =>
    match x.run s with
    | .ok r => ret r.1
    | .error e => fail e

/-- A part before and behind which others may run. -/
def request (x : Prog σ ε α) : Co σ ε α := yield (atomic x >>= fun a => yield (ret a))

/-- The state between two steps, and where the program is then. -/
inductive Outcome (σ ε α : Type) where
  | done (a : α) (s : σ)
  | failed (e : ε)
  | paused (c : Co σ ε α) (s : σ)

/-- Run to the next `yield`. -/
def resume : Co σ ε α → σ → Outcome σ ε α
  | ret a, s => .done a s
  | fail e, _ => .failed e
  | act put next, s => (next s).resume (put s)
  | yield next, s => .paused next s

/-- Run to the end. -/
def run : Co σ ε α → Prog σ ε α
  | ret a => pure a
  | fail e => throw e
  | act put next => fun s => (next s).run (put s)
  | yield next => next.run

/-- What a program leaves to do once it has come to an `Outcome`. -/
def Outcome.rest : Outcome σ ε α → Except ε (α × σ)
  | done a s => .ok (a, s)
  | failed e => .error e
  | paused c s => c.run.run s

/-- **A step does not change what is left to do.** -/
theorem run_of_resume (c : Co σ ε α) (s : σ) : c.run.run s = (c.resume s).rest := by
  induction c generalizing s with
  | ret a => rfl
  | fail e => rfl
  | act put next ih => exact ih s (put s)
  | yield next => rfl

@[simp] theorem run_pure (a : α) : (pure a : Co σ ε α).run = pure a := rfl

@[simp] theorem run_bind (x : Co σ ε α) (f : α → Co σ ε β) : (x >>= f).run = x.run >>= fun a => (f a).run := by
  induction x with
  | ret a => rfl
  | fail e => rfl
  | act put next ih =>
    funext s
    exact congrFun (ih s) (put s)
  | yield next ih => exact ih

@[simp] theorem run_atomic (x : Prog σ ε α) : (atomic x).run = x := by
  funext s
  change (match x.run s with | .ok r => ret r.1 | .error e => fail e : Co σ ε α).run.run (stateAfter x s) = x.run s
  unfold stateAfter
  cases x.run s with
  | error e => rfl
  | ok r => rfl

@[simp] theorem run_request (x : Prog σ ε α) : (request x).run = x := by
  change (atomic x >>= fun a => yield (ret a)).run = x
  rw [run_bind, run_atomic]
  exact bind_pure x

@[simp] theorem run_ite {p : Prop} [Decidable p] (x y : Co σ ε α) :
    (if p then x else y).run = if p then x.run else y.run := by split_ifs <;> rfl

/-! ## What a program does not change -/

/-- No part of the program changes what `view` sees of the state. -/
def Keeps {γ : Type} (view : σ → γ) : Co σ ε α → Prop
  | ret _ | fail _ => True
  | act put next => ∀ s, view (put s) = view s ∧ (next s).Keeps view
  | yield next => next.Keeps view

section
variable {γ : Type} {view : σ → γ} {x c : Co σ ε α} {f : α → Co σ ε β} {s t : σ}

theorem Keeps.bind (hx : x.Keeps view) (hf : ∀ a, (f a).Keeps view) : (x >>= f).Keeps view := by
  induction x with
  | ret a => exact hf a
  | fail e => trivial
  | act put next ih => exact fun s => ⟨(hx s).1, ih s (hx s).2⟩
  | yield next ih => exact ih hx

theorem keeps_atomic {x : Prog σ ε α} (hx : Prog.Keeps view x) : (atomic x).Keeps view := by
  intro s
  constructor
  · unfold stateAfter
    cases h : x.run s with
    | error e => rfl
    | ok r => exact hx s r.1 r.2 h
  · change (match x.run s with | .ok r => ret r.1 | .error e => fail e : Co σ ε α).Keeps view
    cases x.run s with
    | error e => trivial
    | ok r => trivial

theorem Keeps.of_done {a : α} (hc : c.Keeps view) (h : c.resume s = .done a t) : view t = view s := by
  induction c generalizing s with
  | ret a =>
    cases h
    rfl
  | fail e => cases h
  | act put next ih => exact (ih s (hc s).2 h).trans (hc s).1
  | yield next => cases h

theorem Keeps.of_paused {c' : Co σ ε α} (hc : c.Keeps view) (h : c.resume s = .paused c' t) :
    view t = view s ∧ c'.Keeps view := by
  induction c generalizing s with
  | ret a => cases h
  | fail e => cases h
  | act put next ih =>
    obtain ⟨hv, hc'⟩ := ih s (hc s).2 h
    exact ⟨hv.trans (hc s).1, hc'⟩
  | yield next =>
    cases h
    exact ⟨rfl, hc⟩

end

/-! ## Parts of a state -/

/-- A part of the state `τ` that can be read and replaced. -/
structure Part (τ σ : Type) where
  get : τ → σ
  put : τ → σ → τ
  get_put : ∀ t s, get (put t s) = s
  put_get : ∀ t, put t (get t) = t
  put_put : ∀ t s s', put (put t s) s' = put t s'

/-- Work on a part of the state. -/
def zoom (p : Part τ σ) (err : ε → δ) : Co σ ε α → Co τ δ α
  | ret a => ret a
  | fail e => fail (err e)
  | act put next => act (fun t => p.put t (put (p.get t))) fun t => (next (p.get t)).zoom p err
  | yield next => yield (next.zoom p err)

/-- A result on the part as one on the whole state. -/
def Part.widen (p : Part τ σ) (err : ε → δ) (t : τ) : Except ε (α × σ) → Except δ (α × τ)
  | .ok r => .ok (r.1, p.put t r.2)
  | .error e => .error (err e)

theorem keeps_zoom {γ : Type} {view : τ → γ} (p : Part τ σ) (err : ε → δ) (h : ∀ t s, view (p.put t s) = view t)
    (c : Co σ ε α) : (c.zoom p err).Keeps view := by
  induction c with
  | ret a => trivial
  | fail e => trivial
  | act put next ih => exact fun t => ⟨h t _, ih (p.get t)⟩
  | yield next ih => exact ih

theorem run_zoom (p : Part τ σ) (err : ε → δ) (c : Co σ ε α) (t : τ) :
    (c.zoom p err).run.run t = p.widen err t (c.run.run (p.get t)) := by
  induction c generalizing t with
  | ret a =>
    change Except.ok (a, t) = Except.ok (a, p.put t (p.get t))
    rw [p.put_get]
  | fail e => rfl
  | act put next ih =>
    have h := ih (p.get t) (p.put t (put (p.get t)))
    rw [p.get_put] at h
    refine h.trans ?_
    change _ = p.widen err t ((next (p.get t)).run.run (put (p.get t)))
    cases (next (p.get t)).run.run (put (p.get t)) with
    | error e => rfl
    | ok r => exact congrArg (fun u => Except.ok (r.1, u)) (p.put_put ..)
  | yield next ih => exact ih t

end Co

end Lib
