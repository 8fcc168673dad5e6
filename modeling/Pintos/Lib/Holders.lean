/-
  Objects and those who hold them.

  `h.Lists l` says that the list `l` names every object of the heap, and each of them once: no object
  is lost, and none is held twice.  The list is often joined from those of several holders.
-/
import Pintos.Lib.Heap
import Mathlib.Data.List.Perm.Basic

namespace Lib

open List

universe u v

section
variable {ι : Type u} {α : Type v} {l : List ι} {i : ι} {f g : ι → List α} {a : α}

theorem flatMap_perm_cons (hl : l.Nodup) (hi : i ∈ l) (hgi : (g i).Perm (a :: f i)) (hg : ∀ j ≠ i, g j = f j) :
    (l.flatMap g).Perm (a :: l.flatMap f) := by
  induction l with
  | nil => cases hi
  | cons j l ih =>
    obtain ⟨hj, hl⟩ := nodup_cons.1 hl
    rw [flatMap_cons, flatMap_cons]
    by_cases hji : j = i
    · subst hji
      have hrest : l.flatMap g = l.flatMap f := flatMap_congr fun k hk => hg k (ne_of_mem_of_not_mem hk hj)
      rw [hrest, ← cons_append]
      exact hgi.append_right _
    · have hrest := ih hl (mem_of_ne_of_mem (Ne.symm hji) hi)
      rw [hg j hji]
      exact (hrest.append_left _).trans perm_middle

theorem flatMap_erase_perm [BEq ι] [LawfulBEq ι] (hi : i ∈ l) (hf : f i = []) : ((l.erase i).flatMap f).Perm (l.flatMap f) := by
  have hperm := (perm_cons_erase hi).flatMap_right f
  rw [flatMap_cons, hf, nil_append] at hperm
  exact hperm.symm

end

namespace Heap

variable {α : Type u} {h h' : Heap α} {l l' : List ℕ} {k : ℕ} {p : α → Bool}

structure Lists (h : Heap α) (l : List ℕ) : Prop where
  nodup : l.Nodup
  mem_iff : ∀ k, k ∈ l ↔ (h.get k).isSome

namespace Lists

theorem same (hl : h.Lists l) (hsame : ∀ k, (h'.get k).isSome = (h.get k).isSome) (hperm : l'.Perm l) : h'.Lists l' where
  nodup := hperm.nodup_iff.2 hl.nodup
  mem_iff k := by rw [hperm.mem_iff, hl.mem_iff, hsame]

theorem add (hl : h.Lists l) (hnew : h.get k = none) (hk : (h'.get k).isSome) (hothers : ∀ j ≠ k, (h'.get j).isSome = (h.get j).isSome)
    (hperm : l'.Perm (k :: l)) : h'.Lists l' where
  nodup := by
    refine hperm.nodup_iff.2 (nodup_cons.2 ⟨fun hmem => ?_, hl.nodup⟩)
    have hsome := (hl.mem_iff k).1 hmem
    rw [hnew] at hsome
    cases hsome
  mem_iff j := by
    rw [hperm.mem_iff, mem_cons, hl.mem_iff]
    by_cases hj : j = k
    · subst hj
      exact iff_of_true (.inl rfl) hk
    · rw [hothers j hj]
      exact or_iff_right hj

theorem drop (hl : h.Lists l) (hk : h'.get k = none) (hothers : ∀ j ≠ k, (h'.get j).isSome = (h.get j).isSome)
    (hperm : l.Perm (k :: l')) : h'.Lists l' := by
  obtain ⟨hnot, hnodup⟩ := nodup_cons.1 (hperm.nodup_iff.1 hl.nodup)
  refine ⟨hnodup, fun j => ?_⟩
  by_cases hj : j = k
  · subst hj
    rw [hk]
    exact iff_of_false hnot Bool.false_ne_true
  · rw [hothers j hj, ← hl.mem_iff, hperm.mem_iff, mem_cons]
    exact (or_iff_right hj).symm

theorem count_eq (hl : h.Lists l) (p : α → Bool) : h.count p = l.countP fun k => (h.get k).any p := by
  have hset : h.having p = (l.filter fun k => (h.get k).any p).toFinset := by
    ext k
    rw [mem_having, mem_toFinset, mem_filter, hl.mem_iff, Option.any_eq_true]
    constructor
    · rintro ⟨a, ha, hp⟩
      exact ⟨Option.isSome_iff_exists.2 ⟨a, ha⟩, a, ha, hp⟩
    · exact fun hk => hk.2
  rw [count, hset, toFinset_card_of_nodup (hl.nodup.filter _), countP_eq_length_filter]

end Lists

end Heap

end Lib
