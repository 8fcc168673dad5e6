/-
  Labelled runs and forward simulation.

  A system is a relation `step s l t`, where the label `l` is what an observer sees of the step.
  If every step of one system can be matched by a step of another with the same label, the second
  has all the runs of the first.
-/
import Mathlib.Init

namespace Lib

universe u v w
variable {σ : Type u} {τ : Type v} {ℓ : Type w} {step : σ → ℓ → σ → Prop} {step' : τ → ℓ → τ → Prop}

/-- The runs of a system, with their labels. -/
inductive Runs (step : σ → ℓ → σ → Prop) : σ → List ℓ → σ → Prop
  | nil {s} : Runs step s [] s
  | cons {s t u l ls} : step s l t → Runs step t ls u → Runs step s (l :: ls) u

variable {s : σ} {ls : List ℓ}

theorem Runs.snoc {t u : σ} {l : ℓ} (h : Runs step s ls t) (hl : step t l u) : Runs step s (ls ++ [l]) u := by
  induction h with
  | nil => exact .cons hl .nil
  | cons hst _ ih => exact .cons hst (ih hl)

theorem Runs.of_eval {exec : σ → ℓ → Option σ} (hexec : ∀ {s l t}, exec s l = some t → step s l t) :
    ∀ {ls : List ℓ} {s t : σ}, ls.foldlM exec s = some t → Runs step s ls t
  | [], _, _, h => Option.some.inj h ▸ .nil
  | _ :: _, _, _, h => by
    obtain ⟨u, hu, h⟩ := Option.bind_eq_some_iff.1 h
    exact .cons (hexec hu) (.of_eval hexec h)

theorem Runs.of_append {u : σ} {ls' : List ℓ} (h : Runs step s (ls ++ ls') u) :
    ∃ t, Runs step s ls t ∧ Runs step t ls' u := by
  induction ls generalizing s with
  | nil => exact ⟨s, .nil, h⟩
  | cons l ls ih =>
    cases h with
    | cons hst hrest =>
      obtain ⟨t, hls, hrest⟩ := ih hrest
      exact ⟨t, .cons hst hls, hrest⟩

/-- Every step of the one system is one of the other. -/
def Simulates (step : σ → ℓ → σ → Prop) (step' : τ → ℓ → τ → Prop) (R : σ → τ → Prop) : Prop :=
  ∀ {s a l t}, R s a → step s l t → ∃ b, step' a l b ∧ R t b

/-- **Simulation.**  The runs of the one system are runs of the other. -/
theorem Runs.simulate {R : σ → τ → Prop} (hsim : Simulates step step' R) {t : σ}
    (h : Runs step s ls t) : ∀ {a : τ}, R s a → ∃ b, Runs step' a ls b ∧ R t b := by
  induction h with
  | nil => exact fun hR => ⟨_, .nil, hR⟩
  | cons hst _ ih =>
    intro a hR
    obtain ⟨b, hab, hR⟩ := hsim hR hst
    obtain ⟨c, hbc, hR⟩ := ih hR
    exact ⟨c, .cons hab hbc, hR⟩

end Lib
