/-
  Programs that do not fail in certain ways.

  `Avoids bad x s Q` says that from the state `s` the program `x` does not fail with an error that is `bad`,
  and that if it returns, its result and the state have `Q`; it may fail with other errors.
-/
import Pintos.Lib.Total

namespace Lib.Prog

variable {σ τ ε ε' α β : Type} {bad : ε → Prop} {x y : Prog σ ε α} {f : α → Prog σ ε β} {s t : σ} {a : α}

theorem error_of_run_bind {e : ε} (h : (x >>= f).run s = .error e) :
    x.run s = .error e ∨ ∃ a t, x.run s = .ok (a, t) ∧ (f a).run t = .error e := by
  rw [StateT.run_bind] at h
  cases hx : x.run s with
  | error e' =>
    rw [hx] at h
    exact .inl (congrArg _ (Except.error.inj h))
  | ok r =>
    rw [hx] at h
    exact .inr ⟨r.1, r.2, rfl, h⟩

structure Avoids (bad : ε → Prop) (x : Prog σ ε α) (s : σ) (Q : α → σ → Prop) : Prop where
  error : ∀ {e}, x.run s = .error e → ¬ bad e
  ok : ∀ {a t}, x.run s = .ok (a, t) → Q a t

namespace Avoids

variable {P Q : α → σ → Prop} {R : β → σ → Prop}

theorem pure (h : Q a s) : Avoids bad (Pure.pure a : Prog σ ε α) s Q where
  error := nofun
  ok hrun := by
    obtain ⟨rfl, rfl⟩ := Prog.ok_inj hrun
    exact h

theorem throw {e : ε} (h : ¬ bad e) : Avoids bad (MonadExcept.throw e : Prog σ ε α) s Q where
  error hrun := Except.error.inj hrun ▸ h
  ok := nofun

theorem of_run (hx : x.run s = .ok (a, t)) (h : Q a t) : Avoids bad x s Q where
  error hrun := nomatch hx.symm.trans hrun
  ok hrun := by
    obtain ⟨rfl, rfl⟩ := Prog.ok_inj (hx.symm.trans hrun)
    exact h

theorem any (x : Prog σ ε α) (s : σ) : Avoids (fun _ => False) x s fun _ _ => True := ⟨fun _ => id, fun _ => trivial⟩

theorem congr_run {s' : σ} (hxy : x.run s = y.run s') (h : Avoids bad y s' Q) : Avoids bad x s Q :=
  ⟨fun hrun => h.error (hxy ▸ hrun), fun hrun => h.ok (hxy ▸ hrun)⟩

theorem mono (h : Avoids bad x s P) (hPQ : ∀ a t, P a t → Q a t) : Avoids bad x s Q := ⟨h.error, fun hrun => hPQ _ _ (h.ok hrun)⟩

theorem bind (hx : Avoids bad x s P) (hf : ∀ a t, P a t → Avoids bad (f a) t R) : Avoids bad (x >>= f) s R where
  error hrun := by
    rcases error_of_run_bind hrun with he | ⟨a, t, hxt, he⟩
    · exact hx.error he
    · exact (hf a t (hx.ok hxt)).error he
  ok hrun := by
    obtain ⟨a, t, hxt, hft⟩ := ok_of_run_bind hrun
    exact (hf a t (hx.ok hxt)).ok hft

theorem bind_run (hx : x.run s = .ok (a, t)) (hf : Avoids bad (f a) t R) : Avoids bad (x >>= f) s R :=
  (Avoids.of_run (Q := fun b u => b = a ∧ u = t) hx ⟨rfl, rfl⟩).bind fun _ _ h => by
    obtain ⟨rfl, rfl⟩ := h
    exact hf

theorem ite {p : Prop} [Decidable p] (hx : p → Avoids bad x s Q) (hy : ¬ p → Avoids bad y s Q) :
    Avoids bad (if p then x else y) s Q := by
  split_ifs with h
  · exact hx h
  · exact hy h

theorem and_keeps {γ : Type} {view : σ → γ} (h : Avoids bad x s Q) (hx : Keeps view x) :
    Avoids bad x s fun a t => Q a t ∧ view t = view s :=
  ⟨h.error, fun hrun => ⟨h.ok hrun, hx _ _ _ hrun⟩⟩

theorem and_ok (h : Avoids bad x s Q) (hP : ∀ a t, x.run s = .ok (a, t) → P a t) : Avoids bad x s fun a t => Q a t ∧ P a t :=
  ⟨h.error, fun hrun => ⟨h.ok hrun, hP _ _ hrun⟩⟩

end Avoids

/-! ## Programs that never fail so -/

def Quiet (bad : ε → Prop) (x : Prog σ ε α) : Prop := ∀ s, Avoids bad x s fun _ _ => True

theorem quiet_pure (a : α) : Quiet bad (pure a : Prog σ ε α) := fun _ => .pure trivial

theorem quiet_throw {e : ε} (h : ¬ bad e) : Quiet bad (throw e : Prog σ ε α) := fun _ => .throw h

theorem quiet_get : Quiet bad (get : Prog σ ε σ) := fun s => .of_run (run_get s) trivial

theorem quiet_set (t : σ) : Quiet bad (set t : Prog σ ε PUnit) := fun s => .of_run (run_set s t) trivial

theorem quiet_modify (g : σ → σ) : Quiet bad (modify g : Prog σ ε PUnit) := fun s => .of_run (run_modify g s) trivial

theorem Quiet.bind (hx : Quiet bad x) (hf : ∀ a, Quiet bad (f a)) : Quiet bad (x >>= f) := fun s => (hx s).bind fun a t _ => hf a t

theorem Quiet.ite {p : Prop} [Decidable p] (hx : Quiet bad x) (hy : Quiet bad y) : Quiet bad (if p then x else y) := by
  split_ifs
  · exact hx
  · exact hy

end Lib.Prog
