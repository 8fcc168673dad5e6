/-
  Heaps of objects.

  Objects live at indices; an object is allocated at an index that was never used before, so
  that the indices in use are bounded.  `count p` is the number of objects with `p`.
-/
import Mathlib.Data.Finset.Card
import Mathlib.Data.Finset.Range
import Mathlib.Tactic

namespace Lib

open Function

universe u

structure Heap (α : Type u) where
  get : ℕ → Option α
  next : ℕ
  get_next : ∀ k, next ≤ k → get k = none

namespace Heap

variable {α : Type u} {h : Heap α} {k : ℕ} {a b : α} {p : α → Bool}

def empty : Heap α := ⟨fun _ => none, 0, fun _ _ => rfl⟩

theorem lt_next (hk : h.get k = some a) : k < h.next := by
  by_contra hlt
  rw [h.get_next k (by omega)] at hk; cases hk

/-- Allocate an object; its index is `h.next`. -/
def alloc (h : Heap α) (a : α) : Heap α where
  get := update h.get h.next (some a)
  next := h.next + 1
  get_next k hk := by rw [update_of_ne (by omega), h.get_next k (by omega)]

/-- Change or free the object at an index in use. -/
def put (h : Heap α) (k : ℕ) (o : Option α) (hk : k < h.next) : Heap α where
  get := update h.get k o
  next := h.next
  get_next j hj := by rw [update_of_ne (by omega), h.get_next j hj]

/-- Change the object at `k`, if there is one. -/
def set (h : Heap α) (k : ℕ) (a : α) : Heap α := if hk : k < h.next then h.put k (some a) hk else h

def free (h : Heap α) (k : ℕ) : Heap α := if hk : k < h.next then h.put k none hk else h

@[simp] theorem get_alloc_self : (h.alloc a).get h.next = some a := update_self ..

theorem get_alloc_of_ne (hk : k ≠ h.next) : (h.alloc a).get k = h.get k := update_of_ne hk ..

theorem get_set (hk : h.get k = some a) (j : ℕ) : (h.set k b).get j = if j = k then some b else h.get j := by
  unfold set
  rw [dif_pos (lt_next hk)]
  exact update_apply ..

theorem get_free (h : Heap α) (k j : ℕ) : (h.free k).get j = if j = k then none else h.get j := by
  unfold free
  by_cases hk : k < h.next
  · rw [dif_pos hk]; exact update_apply ..
  · rw [dif_neg hk]
    split_ifs with hj
    · exact h.get_next j (by omega)
    · rfl

theorem set_self (hk : h.get k = some a) : h.set k a = h := by
  unfold set put
  rw [dif_pos (lt_next hk)]
  have hget : update h.get k (some a) = h.get := by
    rw [← hk]
    exact update_eq_self k h.get
  simp only [hget]

/-! ## Counting -/

/-- The indices of the objects with `p`. -/
def having (h : Heap α) (p : α → Bool) : Finset ℕ := (Finset.range h.next).filter fun k => (h.get k).any p

def count (h : Heap α) (p : α → Bool) : ℕ := (h.having p).card

theorem mem_having : k ∈ h.having p ↔ ∃ a, h.get k = some a ∧ p a = true := by
  simp only [having, Finset.mem_filter, Finset.mem_range, Option.any_eq_true]
  constructor
  · rintro ⟨-, a, ha, hp⟩; exact ⟨a, ha, hp⟩
  · rintro ⟨a, ha, hp⟩; exact ⟨lt_next ha, a, ha, hp⟩

theorem count_pos_iff : 0 < h.count p ↔ ∃ k a, h.get k = some a ∧ p a = true := by
  rw [count, Finset.card_pos]
  constructor
  · rintro ⟨k, hk⟩
    obtain ⟨a, ha, hp⟩ := mem_having.1 hk
    exact ⟨k, a, ha, hp⟩
  · rintro ⟨k, a, ha, hp⟩; exact ⟨k, mem_having.2 ⟨a, ha, hp⟩⟩

theorem count_le {q : α → Bool} (hpq : ∀ a, p a = true → q a = true) : h.count p ≤ h.count q := by
  refine Finset.card_le_card fun k hk => ?_
  obtain ⟨a, ha, hp⟩ := mem_having.1 hk
  exact mem_having.2 ⟨a, ha, hpq a hp⟩

theorem count_lt {q : α → Bool} (hpq : ∀ a, p a = true → q a = true) (hk : h.get k = some a) (hq : q a = true)
    (hp : p a = false) : h.count p < h.count q := by
  refine Finset.card_lt_card (Finset.ssubset_iff_of_subset ?_ |>.2 ⟨k, mem_having.2 ⟨a, hk, hq⟩, fun hmem => ?_⟩)
  · intro j hj
    obtain ⟨b, hb, hpb⟩ := mem_having.1 hj
    exact mem_having.2 ⟨b, hb, hpq b hpb⟩
  · obtain ⟨b, hb, hpb⟩ := mem_having.1 hmem
    rw [Option.some.inj (hb.symm.trans hk), hp] at hpb
    cases hpb

theorem count_lt_of_new {h' : Heap α} (hk : h'.get k = some a) (hp : p a = true) (hnew : h.get k = none)
    (hold : ∀ j ≠ k, h'.get j = h.get j) : h.count p < h'.count p := by
  have hne : ∀ {j b}, h.get j = some b → j ≠ k := by
    rintro j b hb rfl
    rw [hnew] at hb
    cases hb
  refine Finset.card_lt_card (Finset.ssubset_iff_of_subset ?_ |>.2 ⟨k, mem_having.2 ⟨a, hk, hp⟩, fun hmem => ?_⟩)
  · intro j hj
    obtain ⟨b, hb, hpb⟩ := mem_having.1 hj
    exact mem_having.2 ⟨b, (hold j (hne hb)).trans hb, hpb⟩
  · obtain ⟨b, hb, -⟩ := mem_having.1 hmem
    exact hne hb rfl

theorem count_alloc : (h.alloc a).count p = h.count p + if p a = true then 1 else 0 := by
  have hnot : h.next ∉ h.having p := by
    intro hk
    obtain ⟨a, ha, -⟩ := mem_having.1 hk
    exact absurd (lt_next ha) (lt_irrefl _)
  have hmem : ∀ k, k ∈ (h.alloc a).having p ↔ k = h.next ∧ p a = true ∨ k ∈ h.having p := by
    intro k
    simp only [mem_having]
    rcases eq_or_ne k h.next with rfl | hk
    · simp [h.get_next]
    · simp [get_alloc_of_ne hk, hk]
  unfold count
  split_ifs with hp
  · rw [← Finset.card_insert_of_notMem hnot]
    congr 1; ext k; rw [hmem, Finset.mem_insert]; simp [hp]
  · rw [Nat.add_zero]
    congr 1; ext k; rw [hmem]; simp [hp]

theorem count_free (hk : h.get k = some a) :
    (h.free k).count p + (if p a = true then 1 else 0) = h.count p := by
  have hmem : ∀ j, j ∈ (h.free k).having p ↔ j ≠ k ∧ j ∈ h.having p := by
    intro j
    simp only [mem_having, get_free]
    rcases eq_or_ne j k with rfl | hj
    · simp
    · simp [hj]
  unfold count
  split_ifs with hp
  · have hin : k ∈ h.having p := mem_having.2 ⟨a, hk, hp⟩
    have : (h.free k).having p = (h.having p).erase k := by
      ext j; rw [hmem, Finset.mem_erase]
    rw [this, Finset.card_erase_of_mem hin, Nat.sub_add_cancel (Finset.card_pos.2 ⟨k, hin⟩)]
  · have hout : k ∉ h.having p := by
      intro hin
      obtain ⟨b, hb, hpb⟩ := mem_having.1 hin
      rw [hk, Option.some.injEq] at hb
      exact hp (hb ▸ hpb)
    rw [Nat.add_zero]
    congr 1; ext j; rw [hmem]
    exact ⟨fun hj => hj.2, fun hj => ⟨fun he => hout (he ▸ hj), hj⟩⟩

theorem count_set (hk : h.get k = some a) (hp : p b = p a) : (h.set k b).count p = h.count p := by
  unfold count
  congr 1; ext j
  simp only [mem_having, get_set hk]
  rcases eq_or_ne j k with rfl | hj
  · simp [hk, hp]
  · simp [hj]

theorem count_set_add (hk : h.get k = some a) :
    (h.set k b).count p + (if p a = true then 1 else 0) = h.count p + if p b = true then 1 else 0 := by
  have hfree : ((h.set k b).free k).having p = (h.free k).having p := by
    ext j
    simp only [mem_having, get_free, get_set hk]
    rcases eq_or_ne j k with rfl | hj
    · simp
    · simp [hj]
  have hset : (h.set k b).get k = some b := by rw [get_set hk, if_pos rfl]
  have h1 := count_free (p := p) hset
  have h2 := count_free (p := p) hk
  unfold count at h1 h2 ⊢
  rw [hfree] at h1
  omega

end Heap

end Lib
