/-
  Ranges of a memory.

  A memory gives a value for every address.  `slice` reads a range of it into a list and `store` writes a
  list to it; `overwrite` is the effect of a `store` on a list that was read before, and `fit` brings a list
  to a length.
-/
import Mathlib.Tactic

namespace Lib

open Function List

universe u
variable {β : Type u} {f g : ℕ → β} {a b k m n : ℕ} {l l' : List β}

/-- The `n` values from the address `a` on. -/
def slice (f : ℕ → β) (a n : ℕ) : List β := (List.range n).map fun i => f (a + i)

/-- Write the list to the address `a` and behind. -/
def store (f : ℕ → β) (a : ℕ) (l : List β) : ℕ → β :=
  fun x => if a ≤ x then (l[x - a]?).getD (f x) else f x

/-- Replace the values from the index `k` on. -/
def overwrite (l : List β) (k : ℕ) (l' : List β) : List β := l.take k ++ l' ++ l.drop (k + l'.length)

@[simp] theorem length_slice : (slice f a n).length = n := by simp [slice]

theorem getElem?_slice (f : ℕ → β) (a n i : ℕ) :
    (slice f a n)[i]? = if i < n then some (f (a + i)) else none := by
  unfold slice
  by_cases h : i < n
  · simp [h]
  · simp [h]

@[simp] theorem slice_zero : slice f a 0 = [] := rfl

theorem slice_congr (h : ∀ i < n, f (a + i) = g (a + i)) : slice f a n = slice g a n :=
  map_congr_left fun i hi => h i (mem_range.1 hi)

theorem slice_add (f : ℕ → β) (a m n : ℕ) : slice f a (m + n) = slice f a m ++ slice f (a + m) n := by
  simp only [slice, range_add, map_append, map_map]
  congr 1
  exact map_congr_left fun i _ => by simp [Nat.add_assoc]

theorem drop_slice (f : ℕ → β) (a n k : ℕ) : (slice f a n).drop k = slice f (a + k) (n - k) := by
  apply ext_getElem?
  intro i
  rw [getElem?_drop, getElem?_slice, getElem?_slice, Nat.add_assoc]
  by_cases h : k + i < n
  · rw [if_pos h, if_pos (by omega)]
  · rw [if_neg h, if_neg (by omega)]

theorem take_slice (f : ℕ → β) (a n k : ℕ) : (slice f a n).take k = slice f a (min k n) := by
  apply ext_getElem?
  intro i
  rw [getElem?_slice]
  by_cases h : i < k
  · rw [getElem?_take_of_lt h, getElem?_slice]
    by_cases h' : i < n
    · rw [if_pos h', if_pos (by omega)]
    · rw [if_neg h', if_neg (by omega)]
  · rw [getElem?_take_eq_none (by omega), if_neg (by omega)]

theorem store_apply_of_lt (h : b < a) : store f a l b = f b := if_neg (by omega)

theorem store_apply_of_ge (h : a + l.length ≤ b) : store f a l b = f b := by
  unfold store
  rw [if_pos (by omega), getElem?_eq_none (by omega), Option.getD_none]

theorem store_apply_add (h : k < l.length) : store f a l (a + k) = l[k] := by
  unfold store
  rw [if_pos (by omega), Nat.add_sub_cancel_left, getElem?_eq_getElem h, Option.getD_some]

@[simp] theorem store_nil : store f a [] = f := by
  funext x
  rcases Nat.lt_or_ge x a with h | h
  · exact store_apply_of_lt h
  · exact store_apply_of_ge (by simpa using h)

theorem store_append : store f a (l ++ l') = store (store f a l) (a + l.length) l' := by
  funext x
  unfold store
  by_cases h : a ≤ x
  · by_cases h' : a + l.length ≤ x
    · rw [if_pos h, if_pos h', if_pos h, getElem?_append_right (by omega),
        getElem?_eq_none (l := l) (by omega), Option.getD_none, Nat.sub_sub]
    · rw [if_pos h, if_neg h', if_pos h, getElem?_append_left (by omega)]
  · rw [if_neg h, if_neg (by omega), if_neg h]

theorem store_append_left : store f a (l ++ l') = store (store f (a + l.length) l') a l := by
  funext x
  unfold store
  by_cases h : a ≤ x
  · by_cases h' : a + l.length ≤ x
    · rw [if_pos h, if_pos h, if_pos h', getElem?_append_right (by omega),
        getElem?_eq_none (l := l) (by omega), Option.getD_none, Nat.sub_sub]
    · rw [if_pos h, if_pos h, if_neg h', getElem?_append_left (by omega)]
  · rw [if_neg h, if_neg h, if_neg (by omega)]

theorem store_singleton (f : ℕ → β) (a : ℕ) (c : β) : store f a [c] = update f a c := by
  funext x
  rcases lt_trichotomy x a with h | rfl | h
  · rw [store_apply_of_lt h, update_of_ne h.ne]
  · rw [update_self]
    exact store_apply_add (l := [c]) Nat.one_pos
  · rw [store_apply_of_ge (by rw [length_singleton]; omega), update_of_ne h.ne']

theorem slice_store_self : slice (store f a l) a l.length = l := by
  apply ext_getElem?
  intro i
  rw [getElem?_slice]
  by_cases h : i < l.length
  · rw [if_pos h, store_apply_add h, getElem?_eq_getElem h]
  · rw [if_neg h, getElem?_eq_none (by omega)]

theorem slice_store_of_disjoint (h : a + l.length ≤ b ∨ b + n ≤ a) :
    slice (store f a l) b n = slice f b n := by
  refine slice_congr fun i hi => ?_
  rcases h with h | h
  · exact store_apply_of_ge (by omega)
  · exact store_apply_of_lt (by omega)

@[simp] theorem store_slice : store f a (slice f a n) = f := by
  funext x
  rcases Nat.lt_or_ge x a with h | h
  · exact store_apply_of_lt h
  · obtain ⟨i, rfl⟩ := Nat.exists_eq_add_of_le h
    by_cases hi : i < n
    · rw [store_apply_add (by simpa using hi)]
      exact Option.some.inj (by rw [← getElem?_eq_getElem, getElem?_slice, if_pos hi])
    · exact store_apply_of_ge (by rw [length_slice]; omega)

theorem store_store_of_le (h : l.length ≤ l'.length) : store (store f a l) a l' = store f a l' := by
  funext x
  rcases Nat.lt_or_ge x a with hx | hx
  · rw [store_apply_of_lt hx, store_apply_of_lt hx, store_apply_of_lt hx]
  · obtain ⟨i, rfl⟩ := Nat.exists_eq_add_of_le hx
    by_cases hi : i < l'.length
    · rw [store_apply_add hi, store_apply_add hi]
    · rw [store_apply_of_ge (by omega), store_apply_of_ge (by omega), store_apply_of_ge (by omega)]

/-! ## Overwriting -/

theorem length_overwrite (h : k + l'.length ≤ l.length) : (overwrite l k l').length = l.length := by
  simp only [overwrite, length_append, length_take, length_drop]
  omega

theorem overwrite_nil : overwrite l k [] = l := by simp [overwrite]

theorem getElem?_overwrite (h : k + l'.length ≤ l.length) (i : ℕ) :
    (overwrite l k l')[i]? = if i < k then l[i]? else if i < k + l'.length then l'[i - k]? else l[i]? := by
  unfold overwrite
  have hk : (l.take k).length = k := by rw [length_take]; omega
  split_ifs with h1 h2
  · rw [getElem?_append_left (by rw [length_append]; omega), getElem?_append_left (by omega),
      getElem?_take_of_lt h1]
  · rw [getElem?_append_left (by rw [length_append]; omega), getElem?_append_right (by omega), hk]
  · rw [getElem?_append_right (by rw [length_append]; omega), getElem?_drop, length_append, hk]
    congr 1
    omega

theorem store_overwrite (h : k + l.length ≤ n) :
    store f a (overwrite (slice f a n) k l) = store f (a + k) l := by
  unfold overwrite
  have h1 : (slice f a n).take k = slice f a k := by rw [take_slice, Nat.min_eq_left (by omega)]
  rw [h1, drop_slice, store_append, store_append, store_slice, length_append, length_slice]
  have h2 : slice f (a + (k + l.length)) (n - (k + l.length)) =
      slice (store f (a + k) l) (a + (k + l.length)) (n - (k + l.length)) :=
    (slice_store_of_disjoint (.inl (by omega))).symm
  rw [h2, store_slice]

theorem slice_store_within (h : k + l.length ≤ n) :
    slice (store f (a + k) l) a n = overwrite (slice f a n) k l := by
  have hl : (overwrite (slice f a n) k l).length = (slice f a n).length := length_overwrite (by simpa using h)
  rw [length_slice] at hl
  rw [← store_overwrite h]
  have := slice_store_self (f := f) (a := a) (l := overwrite (slice f a n) k l)
  rwa [hl] at this

/-! ## Padding -/

/-- The list cut off or filled with zeros to the length `n`. -/
def fit (n : ℕ) (l : List UInt8) : List UInt8 := l.take n ++ List.replicate (n - l.length) 0

@[simp] theorem length_fit (n : ℕ) (l : List UInt8) : (fit n l).length = n := by
  rw [fit, length_append, length_take, length_replicate]
  omega

theorem fit_of_le {l : List UInt8} (h : l.length ≤ n) : fit n l = l ++ List.replicate (n - l.length) 0 := by
  rw [fit, take_of_length_le h]

theorem fit_append {l l' : List UInt8} (h : l.length ≤ n) : fit n (l ++ l') = l ++ fit (n - l.length) l' := by
  unfold fit
  rw [take_append, take_of_length_le h, append_assoc, length_append, Nat.sub_sub]

/-! ## Words -/

def ofWord (v : ℕ) : List UInt8 :=
  [UInt8.ofNat v, UInt8.ofNat (v / 2 ^ 8), UInt8.ofNat (v / 2 ^ 16), UInt8.ofNat (v / 2 ^ 24)]

def toWord (l : List UInt8) : ℕ :=
  (l[0]?.getD 0).toNat + 2 ^ 8 * (l[1]?.getD 0).toNat + 2 ^ 16 * (l[2]?.getD 0).toNat +
    2 ^ 24 * (l[3]?.getD 0).toNat

theorem toWord_lt (l : List UInt8) : toWord l < 2 ^ 32 := by
  unfold toWord
  have h0 := (l[0]?.getD 0).toNat_lt
  have h1 := (l[1]?.getD 0).toNat_lt
  have h2 := (l[2]?.getD 0).toNat_lt
  have h3 := (l[3]?.getD 0).toNat_lt
  omega

@[simp] theorem length_ofWord (v : ℕ) : (ofWord v).length = 4 := rfl

variable {v : ℕ}

theorem toWord_ofWord_append (h : v < 2 ^ 32) (l : List UInt8) : toWord (ofWord v ++ l) = v := by
  simp only [toWord, ofWord, cons_append, getElem?_cons_zero, getElem?_cons_succ,
    Option.getD_some, UInt8.toNat_ofNat']
  omega

theorem toWord_ofWord (h : v < 2 ^ 32) : toWord (ofWord v) = v := by
  have := toWord_ofWord_append h []
  rwa [append_nil] at this

/-- The word at an address. -/
def getWord (f : ℕ → UInt8) (a : ℕ) : ℕ := toWord (slice f a 4)

/-- Write a word to an address. -/
def putWord (f : ℕ → UInt8) (a v : ℕ) : ℕ → UInt8 := store f a (ofWord v)

theorem getWord_putWord {f : ℕ → UInt8} (h : v < 2 ^ 32) : getWord (putWord f a v) a = v := by
  have hself : slice (store f a (ofWord v)) a 4 = ofWord v := slice_store_self
  rw [getWord, putWord, hself, toWord_ofWord h]

theorem getWord_store_of_disjoint {f : ℕ → UInt8} {l : List UInt8} (h : a + l.length ≤ b ∨ b + 4 ≤ a) :
    getWord (store f a l) b = getWord f b := by
  rw [getWord, slice_store_of_disjoint h]
  rfl

theorem getWord_putWord_of_disjoint {f : ℕ → UInt8} (h : a + 4 ≤ b ∨ b + 4 ≤ a) :
    getWord (putWord f a v) b = getWord f b :=
  getWord_store_of_disjoint h

theorem getWord_congr {f g : ℕ → UInt8} (h : ∀ i < 4, f (a + i) = g (b + i)) : getWord f a = getWord g b := by
  unfold getWord
  congr 1
  exact map_congr_left fun i hi => h i (mem_range.1 hi)

end Lib
