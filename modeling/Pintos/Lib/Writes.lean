/-
  Several writes to a memory.

  A write is an address with the list that is written there.  Writes that are `Apart` touch no
  common address, so that after all of them each list is found where it was written.
-/
import Pintos.Lib.Bytes

namespace Lib

open List

universe u
variable {β : Type u} {f : ℕ → β} {l l' : List (ℕ × List β)} {w : ℕ × List β} {x : ℕ}

/-- The writes, one after another. -/
def write (f : ℕ → β) (l : List (ℕ × List β)) : ℕ → β := l.foldl (fun f w => store f w.1 w.2) f

/-- The ranges of the writes do not overlap. -/
def Apart (w w' : ℕ × List β) : Prop := w.1 + w.2.length ≤ w'.1 ∨ w'.1 + w'.2.length ≤ w.1

theorem write_append (f : ℕ → β) (l l' : List (ℕ × List β)) : write f (l ++ l') = write (write f l) l' :=
  foldl_append

theorem write_concat (f : ℕ → β) (l : List (ℕ × List β)) (w : ℕ × List β) :
    write f (l ++ [w]) = store (write f l) w.1 w.2 := by
  rw [write_append]
  rfl

theorem slice_write_of_mem (hl : l.Pairwise Apart) (hw : w ∈ l) : slice (write f l) w.1 w.2.length = w.2 := by
  induction l using List.reverseRecOn with
  | nil => cases hw
  | append_singleton l w' ih =>
    obtain ⟨hl, -, hapart⟩ := pairwise_append.1 hl
    rw [write_concat]
    rcases mem_append.1 hw with hw | hw
    · rw [slice_store_of_disjoint (hapart w hw w' (by simp)).symm]
      exact ih hl hw
    · obtain rfl := mem_singleton.1 hw
      exact slice_store_self

/-- The writes are apart, and between two addresses. -/
structure Packed (l : List (ℕ × List β)) (lo hi : ℕ) : Prop where
  le : lo ≤ hi
  apart : l.Pairwise Apart
  inside : ∀ w ∈ l, lo ≤ w.1 ∧ w.1 + w.2.length ≤ hi

namespace Packed

variable {lo mid hi : ℕ}

theorem nil (h : lo ≤ hi) : Packed ([] : List (ℕ × List β)) lo hi := ⟨h, List.Pairwise.nil, by simp⟩

theorem singleton (h : w.1 + w.2.length = hi) : Packed [w] w.1 hi where
  le := by omega
  apart := pairwise_singleton _ _
  inside := by simp [h]

theorem append (h : Packed l mid hi) (h' : Packed l' lo mid) : Packed (l ++ l') lo hi where
  le := h'.le.trans h.le
  apart := pairwise_append.2 ⟨h.apart, h'.apart, fun w hw w' hw' =>
    .inr ((h'.inside w' hw').2.trans (h.inside w hw).1)⟩
  inside := by
    intro w hw
    rcases mem_append.1 hw with hw | hw
    · exact ⟨h'.le.trans (h.inside w hw).1, (h.inside w hw).2⟩
    · exact ⟨(h'.inside w hw).1, (h'.inside w hw).2.trans h.le⟩

end Packed

end Lib
