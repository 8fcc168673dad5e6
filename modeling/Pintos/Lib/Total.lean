/-
  Programs that return.

  `Returns x s Q` says that from the state `s` the program `x` returns, and that its result and the
  state then have `Q`.  The rules follow the program.  `zoom` runs a program on a part of the state.
-/
import Pintos.Lib.Prog

namespace Lib.Prog

variable {σ τ ε ε' α β : Type} {x : Prog σ ε α} {f : α → Prog σ ε β} {s : σ} {a : α}

def Returns (x : Prog σ ε α) (s : σ) (Q : α → σ → Prop) : Prop := ∃ a t, x.run s = .ok (a, t) ∧ Q a t

namespace Returns

variable {P Q : α → σ → Prop} {R : β → σ → Prop}

variable {t : σ}

theorem of_run (h : x.run s = .ok (a, t)) (hQ : Q a t) : Returns x s Q := ⟨a, t, h, hQ⟩

theorem of_eval {p : α → σ → Bool} (h : ((x.run s).toOption.map fun r => p r.1 r.2) = some true) :
    Returns x s fun a t => p a t = true := by
  cases hx : x.run s with
  | error e =>
    rw [hx] at h
    cases h
  | ok r =>
    rw [hx] at h
    exact ⟨r.1, r.2, hx, Option.some.inj h⟩

theorem pure (h : Q a s) : Returns (Pure.pure a : Prog σ ε α) s Q := ⟨a, s, rfl, h⟩

theorem mono (h : Returns x s P) (hPQ : ∀ a t, P a t → Q a t) : Returns x s Q := by
  obtain ⟨a, t, hrun, hP⟩ := h
  exact ⟨a, t, hrun, hPQ a t hP⟩

theorem bind (hx : Returns x s P) (hf : ∀ a t, P a t → Returns (f a) t R) : Returns (x >>= f) s R := by
  obtain ⟨a, t, hrun, hP⟩ := hx
  obtain ⟨b, u, hrun', hR⟩ := hf a t hP
  exact ⟨b, u, (run_bind_ok hrun).trans hrun', hR⟩

theorem bind_run (hx : x.run s = .ok (a, t)) (hf : Returns (f a) t R) : Returns (x >>= f) s R := by
  obtain ⟨b, u, hrun, hR⟩ := hf
  exact ⟨b, u, (run_bind_ok hx).trans hrun, hR⟩

theorem bind_run_iff (hx : x.run s = .ok (a, t)) : Returns (x >>= f) s R ↔ Returns (f a) t R := by
  unfold Returns
  rw [run_bind_ok hx]

theorem and_preserves {I : σ → Prop} (h : Returns x s Q) (hx : Preserves I x) (hs : I s) :
    Returns x s fun a t => Q a t ∧ I t := by
  obtain ⟨a, t, hrun, hQ⟩ := h
  exact ⟨a, t, hrun, hQ, hx s a t hs hrun⟩

end Returns

/-! ## Programs on a part of the state -/

section
variable {view : σ → τ} {put : σ → τ → σ} {err : ε → ε'}

/-- Run a program on the part `view` of the state. -/
def zoom (view : σ → τ) (put : σ → τ → σ) (err : ε → ε') (x : Prog τ ε α) : Prog σ ε' α := do
  let s ← get
  match x.run (view s) with
  | .ok (a, t) => do
    set (put s t)
    Pure.pure a
  | .error e => throw (err e)

theorem zoom_run {x : Prog τ ε α} {t : τ} (h : x.run (view s) = .ok (a, t)) :
    (zoom view put err x).run s = .ok (a, put s t) := by
  unfold zoom
  rw [run_bind_get, h]
  rfl

theorem Returns.zoom {x : Prog τ ε α} {Q : α → τ → Prop} (h : Returns x (view s) Q) :
    Returns (zoom view put err x) s fun a s' => ∃ t, Q a t ∧ s' = put s t := by
  obtain ⟨a, t, hrun, hQ⟩ := h
  exact ⟨a, put s t, zoom_run hrun, t, hQ, rfl⟩

theorem ok_of_zoom {x : Prog τ ε α} {s' : σ} (h : (zoom view put err x).run s = .ok (a, s')) :
    ∃ t, x.run (view s) = .ok (a, t) ∧ s' = put s t := by
  unfold Prog.zoom at h
  rw [run_bind_get] at h
  cases hx : x.run (view s) with
  | error e => rw [hx] at h; cases h
  | ok r =>
    rw [hx] at h
    obtain ⟨rfl, rfl⟩ := Prog.ok_inj h
    exact ⟨r.2, rfl, rfl⟩

theorem zoom_bind (hview : ∀ s t, view (put s t) = t) (hput : ∀ s t u, put (put s t) u = put s u) (x : Prog τ ε α)
    (f : α → Prog τ ε β) (s : σ) : (zoom view put err (x >>= f)).run s =
      (zoom view put err x >>= fun a => zoom view put err (f a)).run s := by
  have hleft : (zoom view put err (x >>= f)).run s = match (x >>= f).run (view s) with
      | .ok (b, t) => .ok (b, put s t)
      | .error e => .error (err e) := by
    unfold zoom
    rw [run_bind_get]
    cases (x >>= f).run (view s) <;> rfl
  rw [hleft]
  cases hx : x.run (view s) with
  | error e =>
    have hfail : (zoom view put err x).run s = .error (err e) := by
      unfold zoom
      rw [run_bind_get, hx]
      rfl
    rw [StateT.run_bind, hx, StateT.run_bind, hfail]
    rfl
  | ok r =>
    obtain ⟨a, t⟩ := r
    rw [run_bind_ok hx, run_bind_ok (zoom_run hx)]
    unfold zoom
    rw [run_bind_get, hview]
    cases (f a).run t with
    | error e => rfl
    | ok q =>
      change _ = Except.ok (q.1, put (put s t) q.2)
      rw [hput]

end

end Lib.Prog
