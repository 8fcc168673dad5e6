/-
  Computations that perform actions.

  A computation has a trace of actions and a value; it has no value if it stops before it
  returns.  Sequencing two computations appends their traces, and what comes after a
  computation that stops is not performed.
-/
import Mathlib.Data.List.Basic

namespace Lib

universe u v
variable {α : Type u} {β γ : Type v}

structure Act (α : Type u) (β : Type v) where
  trace : List α
  value : Option β

namespace Act

/-- Perform one action. -/
def act (a : α) : Act α Unit := ⟨[a], some ()⟩

/-- Do not return. -/
def stop : Act α β := ⟨[], none⟩

protected def bind (x : Act α β) (f : β → Act α γ) : Act α γ :=
  match x.value with
  | some b => ⟨x.trace ++ (f b).trace, (f b).value⟩
  | none => ⟨x.trace, none⟩

instance : Monad (Act α) where
  pure b := ⟨[], some b⟩
  bind := Act.bind

@[simp] theorem pure_trace (b : β) : (pure b : Act α β).trace = [] := rfl
@[simp] theorem pure_value (b : β) : (pure b : Act α β).value = some b := rfl
@[simp] theorem act_trace (a : α) : (act a).trace = [a] := rfl
@[simp] theorem act_value (a : α) : (act a).value = some () := rfl
@[simp] theorem stop_trace : (stop : Act α β).trace = [] := rfl
@[simp] theorem stop_value : (stop : Act α β).value = none := rfl

theorem bind_some {x : Act α β} {b : β} (h : x.value = some b) (f : β → Act α γ) :
    x >>= f = ⟨x.trace ++ (f b).trace, (f b).value⟩ := by
  change Act.bind x f = _
  rw [Act.bind, h]

theorem bind_none {x : Act α β} (h : x.value = none) (f : β → Act α γ) : x >>= f = ⟨x.trace, none⟩ := by
  change Act.bind x f = _
  rw [Act.bind, h]

end Act

end Lib
