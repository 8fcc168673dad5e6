/-
  Numbers that are written with digits, the most significant one first.
-/
import Mathlib.Data.Nat.Digits.Lemmas
import Mathlib.Tactic.Ring

namespace Lib

variable {b v : ℕ} {ds es : List ℕ}

/-- The digits read behind a number. -/
def number (b v : ℕ) (ds : List ℕ) : ℕ := ds.foldl (fun v d => v * b + d) v

theorem le_number (hb : 0 < b) : v ≤ number b v ds := by
  induction ds generalizing v with
  | nil => exact le_rfl
  | cons d ds ih => exact ((Nat.le_mul_of_pos_right v hb).trans (Nat.le_add_right ..)).trans ih

end Lib
