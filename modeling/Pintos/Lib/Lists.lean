/-
  Lists that are collected from indices.

  `(List.range n).flatMap f` collects the lists `f 0`, ..., `f (n - 1)`.  When one of them changes, the
  collected list loses the old one and gains the new one.
-/
import Mathlib.Data.List.Perm.Basic
import Mathlib.Tactic

namespace Lib

open scoped List

universe u
variable {α : Type u} {f g : ℕ → List α} {l : List α} {i n : ℕ}

theorem flatMap_range_congr (h : ∀ i < n, f i = g i) : (List.range n).flatMap f = (List.range n).flatMap g :=
  List.flatMap_congr fun i hi => h i (List.mem_range.1 hi)

theorem mem_flatMap_range {x : α} : x ∈ (List.range n).flatMap f ↔ ∃ i < n, x ∈ f i := by
  rw [List.mem_flatMap]
  constructor
  · rintro ⟨i, hi, hx⟩
    exact ⟨i, List.mem_range.1 hi, hx⟩
  · rintro ⟨i, hi, hx⟩
    exact ⟨i, List.mem_range.2 hi, hx⟩

theorem flatMap_range_succ : (List.range (n + 1)).flatMap f = (List.range n).flatMap f ++ f n := by
  rw [List.range_succ, List.flatMap_append, List.flatMap_singleton]

theorem flatMap_range_from (f : ℕ → List α) (n i : ℕ) :
    ((List.range (n + 1)).flatMap fun k => f (i + k)) = f i ++ (List.range n).flatMap fun k => f (i + 1 + k) := by
  rw [List.range_succ_eq_map, List.flatMap_cons, List.flatMap_map, Nat.add_zero]
  refine congrArg (f i ++ ·) (flatMap_range_congr fun k _ => ?_)
  rw [Nat.succ_eq_one_add, Nat.add_assoc]

theorem perm_flatMap_update (hi : i < n) :
    ((List.range n).flatMap (Function.update f i l) ++ f i).Perm ((List.range n).flatMap f ++ l) := by
  induction n with
  | zero => omega
  | succ n ih =>
    rw [flatMap_range_succ, flatMap_range_succ]
    rcases eq_or_ne i n with rfl | hne
    · rw [flatMap_range_congr (g := f) fun j hj => Function.update_of_ne (by omega) .., Function.update_self,
        List.append_assoc, List.append_assoc]
      exact List.perm_append_comm.append_left _
    · rw [Function.update_of_ne (Ne.symm hne), List.append_assoc, List.append_assoc]
      calc (List.range n).flatMap (Function.update f i l) ++ (f n ++ f i)
          ~ (List.range n).flatMap (Function.update f i l) ++ (f i ++ f n) := List.perm_append_comm.append_left _
        _ ~ ((List.range n).flatMap (Function.update f i l) ++ f i) ++ f n := by rw [List.append_assoc]
        _ ~ ((List.range n).flatMap f ++ l) ++ f n := (ih (by omega)).append_right _
        _ ~ (List.range n).flatMap f ++ (f n ++ l) := by
          rw [List.append_assoc]
          exact List.perm_append_comm.append_left _

theorem perm_flatMap_cons (hi : i < n) (x : α) :
    ((List.range n).flatMap (Function.update f i (x :: f i))).Perm (x :: (List.range n).flatMap f) := by
  have h := perm_flatMap_update (f := f) (l := x :: f i) hi
  have hswap : ((List.range n).flatMap f ++ x :: f i).Perm ((x :: (List.range n).flatMap f) ++ f i) := List.perm_middle
  exact (List.perm_append_right_iff _).1 (h.trans hswap)

theorem perm_flatMap_grow {x : α} (hi : i < n) (hnew : (g i).Perm (x :: f i)) (hother : ∀ j < n, j ≠ i → g j = f j) :
    ((List.range n).flatMap g).Perm (x :: (List.range n).flatMap f) := by
  have hg : (List.range n).flatMap g = (List.range n).flatMap (Function.update f i (g i)) := by
    refine flatMap_range_congr fun j hj => ?_
    rw [Function.update_apply]
    split_ifs with hji
    · rw [hji]
    · exact hother j hj hji
  rw [hg]
  have h := perm_flatMap_update (f := f) (l := g i) hi
  have hswap : ((List.range n).flatMap f ++ x :: f i).Perm ((x :: (List.range n).flatMap f) ++ f i) := List.perm_middle
  exact (List.perm_append_right_iff _).1 (h.trans ((hnew.append_left _).trans hswap))

end Lib
