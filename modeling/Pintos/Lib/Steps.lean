/-
  Runs of a partial step function.

  A system is a step function `σ → ℓ → Option σ` whose labels carry the choices it leaves open (who moves,
  what the environment answers).
-/
import Mathlib.Logic.Relation

namespace Lib

universe u v
variable {σ : Type u} {ℓ : Type v} {step : σ → ℓ → Option σ} {ok : σ → ℓ → Prop} {s t : σ}

/-- One step whose label satisfies `ok`. -/
def StepOk (step : σ → ℓ → Option σ) (ok : σ → ℓ → Prop) (s t : σ) : Prop :=
  ∃ l, ok s l ∧ step s l = some t

/-- The states reached by runs whose steps all satisfy `ok`. -/
def Reaches (step : σ → ℓ → Option σ) (ok : σ → ℓ → Prop) : σ → σ → Prop :=
  Relation.ReflTransGen (StepOk step ok)

/-- No condition on the steps. -/
def anyStep : σ → ℓ → Prop := fun _ _ => True

/-- **The invariant rule.** -/
theorem Reaches.invariant {P : σ → Prop} (h : Reaches step ok s t) (h0 : P s)
    (hs : ∀ s l t, P s → ok s l → step s l = some t → P t) : P t := by
  induction h with
  | refl => exact h0
  | tail _ hst ih =>
    obtain ⟨l, hl, hst⟩ := hst
    exact hs _ l _ ih hl hst

theorem Reaches.mono {ok' : σ → ℓ → Prop} (h : Reaches step ok s t) (hok : ∀ s l, ok s l → ok' s l) :
    Reaches step ok' s t := by
  induction h with
  | refl => exact .refl
  | tail _ hst ih =>
    obtain ⟨l, hl, hst⟩ := hst
    exact ih.tail ⟨l, hok _ l hl, hst⟩

/-- Run the labels of a list, checking the condition `ok` at every step. -/
def runList (step : σ → ℓ → Option σ) (ok : σ → ℓ → Prop) [∀ s l, Decidable (ok s l)] :
    σ → List ℓ → Option σ
  | s, [] => some s
  | s, l :: ls => if ok s l then (step s l).bind fun t => runList step ok t ls else none

theorem runList_reaches [∀ s l, Decidable (ok s l)] :
    ∀ {ls : List ℓ} {s t : σ}, runList step ok s ls = some t → Reaches step ok s t
  | [], s, t, h => by
    simp only [runList, Option.some.injEq] at h
    subst h; exact Relation.ReflTransGen.refl
  | l :: ls, s, t, h => by
    simp only [runList] at h
    split at h
    · rename_i hl
      obtain ⟨u, hu, h⟩ := Option.bind_eq_some_iff.1 h
      exact Relation.ReflTransGen.head ⟨l, hl, hu⟩ (runList_reaches h)
    · cases h

instance : ∀ (s : σ) (l : ℓ), Decidable (anyStep s l) := fun _ _ => isTrue trivial

theorem reaches_of_run (step : σ → ℓ → Option σ) (ok : σ → ℓ → Prop) [∀ s l, Decidable (ok s l)]
    (s : σ) (ls : List ℓ) (p : σ → Bool)
    (h : (runList step ok s ls).map p = some true) : ∃ t, Reaches step ok s t ∧ p t = true := by
  obtain ⟨t, ht, hp⟩ := Option.map_eq_some_iff.1 h
  exact ⟨t, runList_reaches ht, hp⟩

end Lib
