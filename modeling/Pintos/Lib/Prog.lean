/-
  Programs with a state that may fail.

  A program is a `StateT σ (Except ε)`; `x.run s = .ok (a, t)` says that from `s` it returns `a` in the
  state `t`.  The rules below run a program step by step when the runs of its parts are known, and take a
  run apart again.
-/
import Mathlib.Control.Monad.Basic
import Mathlib.Tactic.SplitIfs
import Mathlib.Tactic.TypeStar

namespace Lib

variable {σ ε α β : Type}

/-- Programs over the state `σ` that fail with an `ε`. -/
abbrev Prog (σ ε α : Type) := StateT σ (Except ε) α

namespace Prog

variable {x : Prog σ ε α} {f : α → Prog σ ε β} {s t : σ} {a : α} {e : ε}

theorem ok_inj {b : α} (h : (Except.ok (a, s) : Except ε (α × σ)) = .ok (b, t)) : a = b ∧ s = t :=
  Prod.mk.inj (Except.ok.inj h)

theorem run_bind_ok (h : x.run s = .ok (a, t)) : (x >>= f).run s = (f a).run t := by
  rw [StateT.run_bind, h]; rfl

theorem ok_of_run_bind {b : β} {u : σ} (h : (x >>= f).run s = .ok (b, u)) :
    ∃ a t, x.run s = .ok (a, t) ∧ (f a).run t = .ok (b, u) := by
  rw [StateT.run_bind] at h
  cases hx : x.run s with
  | error e => rw [hx] at h; cases h
  | ok r => rw [hx] at h; exact ⟨r.1, r.2, rfl, h⟩

/-- Continuations may be exchanged if they agree behind the first part. -/
theorem run_bind_congr {g : α → Prog σ ε β} (h : ∀ a t, x.run s = .ok (a, t) → (f a).run t = (g a).run t) :
    (x >>= f).run s = (x >>= g).run s := by
  rw [StateT.run_bind, StateT.run_bind]
  cases hx : x.run s with
  | error e => rfl
  | ok r => exact h r.1 r.2 hx

/-- The first part may be exchanged for one with the same run. -/
theorem run_bind_congr_left {y : Prog σ ε α} (h : x.run s = y.run s) : (x >>= f).run s = (y >>= f).run s := by
  rw [StateT.run_bind, h, ← StateT.run_bind]

@[simp] theorem run_pure (a : α) (s : σ) : (pure a : Prog σ ε α).run s = .ok (a, s) := rfl

@[simp] theorem run_get (s : σ) : (get : Prog σ ε σ).run s = .ok (s, s) := rfl

@[simp] theorem run_set (s t : σ) : (set t : Prog σ ε PUnit).run s = .ok (⟨⟩, t) := rfl

@[simp] theorem run_modify (g : σ → σ) (s : σ) : (modify g : Prog σ ε PUnit).run s = .ok (⟨⟩, g s) := rfl

theorem run_bind_get {f : σ → Prog σ ε β} : (get >>= f).run s = (f s).run s := rfl

theorem run_bind_set {f : PUnit → Prog σ ε β} : (set t >>= f).run s = (f ⟨⟩).run t := rfl

theorem run_bind_modify {g : σ → σ} {f : PUnit → Prog σ ε β} : (modify g >>= f).run s = (f ⟨⟩).run (g s) := rfl

/-! ## Parts of the state that do not change -/

def Keeps {γ : Type*} (view : σ → γ) (x : Prog σ ε α) : Prop := ∀ s a t, x.run s = .ok (a, t) → view t = view s

section
variable {γ : Type*} {view : σ → γ}

theorem keeps_pure (a : α) : Keeps view (pure a : Prog σ ε α) := by
  intro s b t h
  rw [(ok_inj h).2]

theorem keeps_throw (e : ε) : Keeps view (throw e : Prog σ ε α) := nofun

theorem keeps_get : Keeps view (get : Prog σ ε σ) := by
  intro s b t h
  rw [(ok_inj h).2]

theorem keeps_modify {g : σ → σ} (hg : ∀ s, view (g s) = view s) : Keeps view (modify g : Prog σ ε PUnit) := by
  intro s b t h
  rw [← (ok_inj h).2, hg]

theorem Keeps.bind (hx : Keeps view x) (hf : ∀ a, Keeps view (f a)) : Keeps view (x >>= f) := by
  intro s b u h
  obtain ⟨a, t, hxt, hfu⟩ := ok_of_run_bind h
  exact (hf a t b u hfu).trans (hx s a t hxt)

theorem Keeps.ite {p : Prop} [Decidable p] {y : Prog σ ε α} (hx : Keeps view x) (hy : Keeps view y) :
    Keeps view (if p then x else y) := by
  split_ifs
  · exact hx
  · exact hy

end

/-! ## Conditions that hold on -/

def Preserves (P : σ → Prop) (x : Prog σ ε α) : Prop := ∀ s a t, P s → x.run s = .ok (a, t) → P t

section
variable {P : σ → Prop}

theorem Keeps.preserves (h : Keeps P x) : Preserves P x := fun s a t hs hx => (h s a t hx).symm ▸ hs

theorem preserves_modify {g : σ → σ} (hg : ∀ s, P s → P (g s)) : Preserves P (modify g : Prog σ ε PUnit) := by
  intro s b t hs h
  rw [← (ok_inj h).2]
  exact hg s hs

theorem Preserves.bind (hx : Preserves P x) (hf : ∀ a, Preserves P (f a)) : Preserves P (x >>= f) := by
  intro s b u hs h
  obtain ⟨a, t, hxt, hfu⟩ := ok_of_run_bind h
  exact hf a t b u (hx s a t hs hxt) hfu

theorem Preserves.ite {p : Prop} [Decidable p] {y : Prog σ ε α} (hx : Preserves P x) (hy : Preserves P y) :
    Preserves P (if p then x else y) := by
  split_ifs
  · exact hx
  · exact hy

end

end Prog

end Lib
