/-
  Headers of archives (lib/ustar.c).

  An `unsigned long` has 32 bits; where a computation does not fit the model has no result.
-/
import Pintos.Lib.Numerals
import Mathlib.Tactic

namespace Pintos.Ustar

open Lib List

def ulongMax : ℕ := 2 ^ 32 - 1

/-- A value of type `unsigned long`. -/
def ulong (v : ℕ) : Option ℕ := if v ≤ ulongMax then some v else none

def IsOctal (c : UInt8) : Prop := 48 ≤ c ∧ c ≤ 55
  deriving Decidable

def digitOf (c : UInt8) : ℕ := c.toNat - 48

/-- The loop of `parse_octal_field`, over the rest of the field: what it returns, and `*value`. -/
def octalLoop : List UInt8 → ℕ → ℕ → Option (Bool × ℕ)
  | [], _, value => some (false, value)
  | c :: s, ofs, value =>
    if IsOctal c then
      if value > ulongMax / 8 then some (false, value)
      else (ulong (digitOf c + value * 8)).bind (octalLoop s (ofs + 1))
    else if c = 32 ∨ c = 0 then some (decide (ofs > 0), value)
    else some (false, value)

def parseOctalField (s : List UInt8) : Option (Bool × ℕ) := octalLoop s 0 0

/-- A field that goes on with these digits, a space or a null byte, and anything. -/
def Terminated (s digits : List UInt8) : Prop :=
  (∀ c ∈ digits, IsOctal c) ∧ ∃ c rest, s = digits ++ c :: rest ∧ (c = 32 ∨ c = 0)

variable {c : UInt8} {s ds : List UInt8} {ofs value r : ℕ}

theorem digitOf_le (hc : IsOctal c) : digitOf c ≤ 7 := Nat.sub_le_of_le_add (UInt8.le_iff_toNat_le.1 hc.2)

theorem terminated_of_octal (hc : IsOctal c) : Terminated (c :: s) ds ↔ ∃ ds', ds = c :: ds' ∧ Terminated s ds' := by
  cases ds with
  | nil =>
    have hend : ¬(c = 32 ∨ c = 0) := by
      rintro (rfl | rfl) <;> exact absurd hc (by decide)
    simp [Terminated, hend]
  | cons d ds =>
    simp only [Terminated, forall_mem_cons, cons_append, cons.injEq]
    grind

theorem terminated_of_not_octal (hc : ¬IsOctal c) : Terminated (c :: s) ds ↔ ds = [] ∧ (c = 32 ∨ c = 0) := by
  cases ds with
  | nil => simp [Terminated]
  | cons d ds =>
    simp only [Terminated, forall_mem_cons, cons_append, cons.injEq]
    grind

theorem ulong_eq (hc : IsOctal c) (hv : ¬value > ulongMax / 8) :
    value * 8 + digitOf c ≤ ulongMax ∧ ulong (digitOf c + value * 8) = some (value * 8 + digitOf c) := by
  have hd := digitOf_le hc
  have hfits : value * 8 + digitOf c ≤ ulongMax := by
    unfold ulongMax at *
    omega
  rw [Nat.add_comm (digitOf c), ulong, if_pos hfits]
  exact ⟨hfits, rfl⟩

theorem octalLoop_ne_none : octalLoop s ofs value ≠ none := by
  induction s generalizing ofs value with
  | nil => nofun
  | cons c s ih =>
    unfold octalLoop
    split_ifs with hc hbig
    · nofun
    · rw [(ulong_eq hc hbig).2]
      exact ih
    · nofun
    · nofun

/-- **The loop**: the field goes on with digits whose number fits. -/
theorem octalLoop_iff (hv : value ≤ ulongMax) : octalLoop s ofs value = some (true, r) ↔
    ∃ ds, Terminated s ds ∧ 0 < ofs + ds.length ∧ number 8 value (ds.map digitOf) = r ∧ r ≤ ulongMax := by
  induction s generalizing ofs value with
  | nil => simp [octalLoop, Terminated]
  | cons c s ih =>
    unfold octalLoop
    split_ifs with hc hbig hend
    · -- the digits that follow make the number larger still
      refine iff_of_false nofun fun ⟨ds, hds, _, hr, hle⟩ => ?_
      obtain ⟨ds, rfl, _⟩ := (terminated_of_octal hc).1 hds
      have hmore : value * 8 + digitOf c ≤ r := hr ▸ le_number (by decide)
      omega
    · obtain ⟨hfits, heq⟩ := ulong_eq hc hbig
      rw [heq, Option.bind_some, ih hfits]
      constructor
      · rintro ⟨ds, hds, _, hr⟩
        exact ⟨c :: ds, (terminated_of_octal hc).2 ⟨ds, rfl, hds⟩, Nat.succ_pos _, hr⟩
      · rintro ⟨ds, hds, _, hr⟩
        obtain ⟨ds, rfl, hrest⟩ := (terminated_of_octal hc).1 hds
        exact ⟨ds, hrest, by omega, hr⟩
    · simp only [terminated_of_not_octal hc, hend, and_true, exists_eq_left, length_nil, map_nil, Nat.add_zero,
        Option.some.injEq, Prod.mk.injEq, decide_eq_true_eq]
      exact and_congr_right fun _ => ⟨fun h => ⟨h, h ▸ hv⟩, And.left⟩
    · simp [terminated_of_not_octal hc, hend]

/-- **Octal fields.**  Nothing wraps.  A field is accepted exactly if it has one or more octal digits, of a number
    that fits, and a space or a null byte behind them; the number is then its value. -/
theorem parseOctalField_iff (s : List UInt8) : parseOctalField s ≠ none ∧ ∀ r, parseOctalField s = some (true, r) ↔
    ∃ ds, ds ≠ [] ∧ Terminated s ds ∧ number 8 0 (ds.map digitOf) = r ∧ r ≤ ulongMax := by
  refine ⟨octalLoop_ne_none, fun r => (octalLoop_iff (Nat.zero_le _)).trans (exists_congr fun ds => ?_)⟩
  rw [Nat.zero_add, length_pos_iff]
  exact and_left_comm

end Pintos.Ustar
