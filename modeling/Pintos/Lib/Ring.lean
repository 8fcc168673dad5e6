/-
  Ring buffers.

  A ring buffer has `n` places, the position where the next value is put and the one from which it is taken;
  one place is always free, so that the positions are the same exactly if it is empty.
-/
import Pintos.Lib.Bytes

namespace Lib

open Function List

universe u

structure RingBuffer (β : Type u) where
  buf : ℕ → β
  head : ℕ
  tail : ℕ

namespace RingBuffer

variable {β : Type u} {n pos : ℕ} {r : RingBuffer β} {b : β}

/-- The position behind another one. -/
def next (n pos : ℕ) : ℕ := (pos + 1) % n

def Empty (r : RingBuffer β) : Prop := r.head = r.tail

def Full (n : ℕ) (r : RingBuffer β) : Prop := next n r.head = r.tail

instance : Decidable r.Empty := inferInstanceAs (Decidable (_ = _))

instance : Decidable (r.Full n) := inferInstanceAs (Decidable (_ = _))

def put (n : ℕ) (r : RingBuffer β) (b : β) : RingBuffer β := { r with buf := update r.buf r.head b, head := next n r.head }

/-- Remove the value `r.buf r.tail`. -/
def take (n : ℕ) (r : RingBuffer β) : RingBuffer β := { r with tail := next n r.tail }

/-- The positions are places. -/
structure Inside (n : ℕ) (r : RingBuffer β) : Prop where
  head : r.head < n
  tail : r.tail < n

/-- The number of values. -/
def length (n : ℕ) (r : RingBuffer β) : ℕ := if r.tail ≤ r.head then r.head - r.tail else r.head + n - r.tail

def contents (n : ℕ) (r : RingBuffer β) : List β := slice (fun i => r.buf (i % n)) r.tail (r.length n)

theorem next_eq (h : pos < n) : next n pos = if pos + 1 = n then 0 else pos + 1 := by
  unfold next
  split_ifs with hn
  · rw [hn, Nat.mod_self]
  · exact Nat.mod_eq_of_lt (by omega)

theorem next_lt (h : pos < n) : next n pos < n := Nat.mod_lt _ (by omega)

section

variable (h : r.Inside n)
include h

theorem Inside.put (b : β) : (r.put n b).Inside n := ⟨next_lt h.head, h.tail⟩

theorem Inside.take : (r.take n).Inside n := ⟨h.head, next_lt h.tail⟩

theorem length_lt : r.length n < n := by
  obtain ⟨hh, ht⟩ := h
  unfold length
  split_ifs <;> omega

theorem empty_iff : r.Empty ↔ r.length n = 0 := by
  obtain ⟨hh, ht⟩ := h
  unfold Empty length
  split_ifs <;> omega

theorem full_iff : r.Full n ↔ r.length n + 1 = n := by
  obtain ⟨hh, ht⟩ := h
  rw [Full, length, next_eq hh]
  split_ifs <;> omega

theorem length_put (hfull : ¬ r.Full n) (b : β) : (r.put n b).length n = r.length n + 1 := by
  rw [full_iff h] at hfull
  obtain ⟨hh, ht⟩ := h
  simp only [length, RingBuffer.put, next_eq hh] at hfull ⊢
  split_ifs at * <;> omega

theorem length_take (hempty : ¬ r.Empty) : r.length n = (r.take n).length n + 1 := by
  rw [empty_iff h] at hempty
  obtain ⟨hh, ht⟩ := h
  simp only [length, RingBuffer.take, next_eq ht] at hempty ⊢
  split_ifs at * <;> omega

theorem not_empty_put (hfull : ¬ r.Full n) (b : β) : ¬ (r.put n b).Empty := by
  rw [empty_iff (h.put b), length_put h hfull]
  exact Nat.succ_ne_zero _

theorem not_full_take (hempty : ¬ r.Empty) : ¬ (r.take n).Full n := by
  have hlt := length_lt h
  rw [length_take h hempty] at hlt
  rw [full_iff h.take]
  omega

end

theorem place_eq {i : ℕ} (h : r.Inside n) (hi : i ≤ r.length n) :
    (r.tail + i) % n = if r.tail + i < n then r.tail + i else r.tail + i - n := by
  have hlt := length_lt h
  have ht := h.tail
  split_ifs with hn
  · exact Nat.mod_eq_of_lt hn
  · rw [Nat.mod_eq_sub_mod (by omega)]
    exact Nat.mod_eq_of_lt (by omega)

/-- **A value is put behind the others.** -/
theorem contents_put (h : r.Inside n) (hfull : ¬ r.Full n) (b : β) : (r.put n b).contents n = r.contents n ++ [b] := by
  rw [contents, length_put h hfull, slice_add]
  have hhead : (r.tail + r.length n) % n = r.head := by
    rw [place_eq h le_rfl]
    obtain ⟨hh, ht⟩ := h
    unfold length
    split_ifs <;> omega
  congr 1
  · -- the new value is in none of the places before
    refine slice_congr fun i hi => ?_
    refine update_of_ne (fun heq => ?_) ..
    change (r.tail + i) % n = r.head at heq
    have hlt := length_lt h
    rw [← hhead, place_eq h hi.le, place_eq h le_rfl] at heq
    split_ifs at heq <;> omega
  · simp only [slice, range_one, map_cons, map_nil, Nat.add_zero]
    change [update r.buf r.head b ((r.tail + r.length n) % n)] = [b]
    rw [hhead, update_self]

/-- **The first value is taken.** -/
theorem contents_take (h : r.Inside n) (hempty : ¬ r.Empty) : r.contents n = r.buf r.tail :: (r.take n).contents n := by
  rw [contents, length_take h hempty, Nat.add_comm, slice_add]
  change r.buf (r.tail % n) :: _ = _
  rw [Nat.mod_eq_of_lt h.tail]
  congr 1
  refine map_congr_left fun i _ => ?_
  change r.buf ((r.tail + 1 + i) % n) = r.buf ((next n r.tail + i) % n)
  rw [next, Nat.mod_add_mod]

end RingBuffer

end Lib
