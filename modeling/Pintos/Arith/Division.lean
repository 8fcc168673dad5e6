/-
  64-bit division with 32-bit instructions (lib/arithmetic.c).

  Unsigned values are natural numbers and signed ones integers; a result of 32 or 64 bits is
  reduced where the computation can wrap.  A `divl` whose quotient does not fit traps, and then
  there is no result.
-/
import Mathlib.Tactic

namespace Pintos.Arith

/-- The instruction `divl`. -/
def divl (n d : ℕ) : Option ℕ := if d ≠ 0 ∧ n / d < 2 ^ 32 then some (n / d) else none

/-- One test of `nlz`, on `n` and `x`. -/
def nlzStep (bound k : ℕ) (r : ℕ × ℕ) : ℕ × ℕ := if r.2 ≤ bound then (r.1 + k, r.2 * 2 ^ k % 2 ^ 32) else r

/-- `nlz`; the last test does not shift, but nothing reads `x` after it. -/
def nlz (x : ℕ) : ℕ :=
  (nlzStep 0x7FFFFFFF 1 (nlzStep 0x3FFFFFFF 2 (nlzStep 0x0FFFFFFF 4 (nlzStep 0x00FFFFFF 8 (nlzStep 0x0000FFFF 16 (0, x)))))).1

def udiv64 (n d : ℕ) : Option ℕ :=
  if d / 2 ^ 32 = 0 then do
    let q ← divl (2 ^ 32 * (n / 2 ^ 32 % d) + n % 2 ^ 32) d
    pure ((q + 2 ^ 32 * (n / 2 ^ 32 / d)) % 2 ^ 64)
  else if n < d then some 0
  else do
    let s := nlz (d / 2 ^ 32)
    let q ← divl (n / 2) (d * 2 ^ s % 2 ^ 64 / 2 ^ 32)
    let q := q / 2 ^ (31 - s)
    let q' := (q + (2 ^ 64 - 1)) % 2 ^ 64
    pure (if (n + 2 ^ 64 - q' * d % 2 ^ 64) % 2 ^ 64 < d then q' else q)

/-- `umod64`, which returns an `uint32_t`. -/
def umod64 (n d : ℕ) : Option ℕ := do
  let q ← udiv64 n d
  pure ((n + 2 ^ 64 - d * q % 2 ^ 64) % 2 ^ 64 % 2 ^ 32)

/-- `n >= 0 ? (uint64_t) n : -(uint64_t) n`. -/
def uabs (n : ℤ) : ℕ := if 0 ≤ n then n.toNat else (-(n % 2 ^ 64) % 2 ^ 64).toNat

/-- `sdiv64`; the negation of -2⁶³ wraps. -/
def sdiv64 (n d : ℤ) : Option ℤ := do
  let q ← udiv64 (uabs n) (uabs d)
  pure (if n < 0 ↔ d < 0 then (q : ℤ).bmod (2 ^ 64) else (-(q : ℤ).bmod (2 ^ 64)).bmod (2 ^ 64))

/-- `smod64`, which returns an `int32_t`. -/
def smod64 (n d : ℤ) : Option ℤ := do
  let q ← sdiv64 n d
  pure ((n - d * q).bmod (2 ^ 64) |>.bmod (2 ^ 32))

def udivdi3 (n d : ℕ) : Option ℕ := udiv64 n d

def divdi3 (n d : ℤ) : Option ℤ := sdiv64 n d

def umoddi3 (n d : ℕ) : Option ℕ := umod64 n d

def moddi3 (n d : ℤ) : Option ℤ := smod64 n d

/-- The values of an `int64_t`. -/
def IsInt64 (n : ℤ) : Prop := -2 ^ 63 ≤ n ∧ n < 2 ^ 63

instance (n : ℤ) : Decidable (IsInt64 n) := inferInstanceAs (Decidable (_ ∧ _))

/-! ## The shift that makes the divisor large -/

/-- `r.2` is `x` shifted by the `r.1` bits that were counted, and at least `2 ^ k`. -/
structure Shifted (x k : ℕ) (r : ℕ × ℕ) : Prop where
  eq : r.2 = x * 2 ^ r.1
  lt : r.2 < 2 ^ 32
  le : 2 ^ k ≤ r.2
  cnt : r.1 ≤ k

theorem Shifted.step {x k j b : ℕ} {r : ℕ × ℕ} (h : Shifted x k r) (hj : k + j + j = 32) (hb : b + 1 = 2 ^ (k + j)) :
    Shifted x (k + j) (nlzStep b j r) := by
  unfold nlzStep
  split_ifs with hle
  · have hlt : r.2 * 2 ^ j < 2 ^ 32 := by
      rw [← hj, pow_add]
      exact Nat.mul_lt_mul_of_pos_right (by omega) (by positivity)
    rw [Nat.mod_eq_of_lt hlt]
    refine ⟨?_, hlt, ?_, Nat.add_le_add_right h.cnt j⟩
    · rw [h.eq, pow_add, mul_assoc]
    · rw [pow_add]
      exact Nat.mul_le_mul_right _ h.le
  · exact ⟨h.eq, h.lt, by omega, h.cnt.trans (Nat.le_add_right k j)⟩

theorem nlz_spec {x : ℕ} (hx : x ≠ 0) (hlt : x < 2 ^ 32) : nlz x ≤ 31 ∧ 2 ^ 31 ≤ x * 2 ^ nlz x ∧ x * 2 ^ nlz x < 2 ^ 32 := by
  have h₀ : Shifted x 0 (0, x) := ⟨by simp, hlt, Nat.pos_of_ne_zero hx, le_rfl⟩
  have h1 := h₀.step (j := 16) rfl rfl
  have h2 := h1.step (j := 8) rfl rfl
  have h3 := h2.step (j := 4) rfl rfl
  have h4 := h3.step (j := 2) rfl rfl
  have h := h4.step (j := 1) rfl rfl
  exact ⟨h.cnt, h.eq ▸ h.le, h.eq ▸ h.lt⟩

/-! ## The estimate -/

variable {n : ℕ}

theorem estimate {c e : ℕ} (hc : 0 < c) (he : (n / (2 * c + e) + 1) * e ≤ 2 * c) :
    n / (2 * c + e) ≤ n / 2 / c ∧ n / 2 / c ≤ n / (2 * c + e) + 1 := by
  have hlow : n / (2 * c + e) * (2 * c + e) ≤ n := Nat.div_mul_le_self n _
  have hhigh : n < (n / (2 * c + e) + 1) * (2 * c + e) := Nat.lt_mul_of_div_lt (Nat.lt_succ_self _) (by omega)
  generalize n / (2 * c + e) = q at *
  have h1 : q * (2 * c + e) = 2 * (q * c) + q * e := by ring
  have h2 : (q + 1) * (2 * c + e) = 2 * (q * c) + 2 * c + (q + 1) * e := by ring
  have h3 : (q + 1 + 1) * c = q * c + 2 * c := by ring
  constructor
  · rw [Nat.le_div_iff_mul_le hc]
    omega
  · rw [← Nat.lt_succ_iff, Nat.div_lt_iff_lt_mul hc, Nat.succ_eq_add_one]
    omega

variable {q : ℕ}

theorem rounded {w v e : ℕ} (hw : 2 ∣ w) (hv : 2 ^ 31 ≤ v) (he : e < w) (hq : q * (w * v + e) < 2 ^ 64) :
    (q + 1) * e ≤ w * v := by
  by_contra hlt
  have hq31 : 2 ^ 31 ≤ q := by
    by_contra hq'
    have h1 : (q + 1) * e ≤ 2 ^ 31 * w := Nat.mul_le_mul (by omega) he.le
    have h2 : 2 ^ 31 * w ≤ w * v := by rw [mul_comm w]; exact Nat.mul_le_mul_right w hv
    omega
  have hw4 : w < 4 := by
    by_contra hw4
    have h1 : 2 ^ 31 * (4 * 2 ^ 31) ≤ q * (w * v + e) :=
      Nat.mul_le_mul hq31 ((Nat.mul_le_mul (by omega) hv).trans (Nat.le_add_right _ e))
    omega
  obtain rfl : w = 2 := by omega
  obtain rfl : e = 1 := by
    by_contra he1
    have : e = 0 := by omega
    rw [this] at hlt
    omega
  have h1 : (2 * v) * (2 * v + 1) ≤ q * (2 * v + 1) := Nat.mul_le_mul_right _ (by omega)
  have h2 : 2 ^ 32 * (2 ^ 32 + 1) ≤ (2 * v) * (2 * v + 1) := Nat.mul_le_mul (by omega) (by omega)
  omega

/-! ## Quotients -/

variable {d : ℕ}

theorem divl_eq (hd : d ≠ 0) (h : n / d < 2 ^ 32) : divl n d = some (n / d) := if_pos ⟨hd, h⟩

theorem udiv64_of_small (hn : n < 2 ^ 64) (hd : d ≠ 0) (hlt : d < 2 ^ 32) : udiv64 n d = some (n / d) := by
  have hmod : n / 2 ^ 32 % d < d := Nat.mod_lt _ (Nat.pos_of_ne_zero hd)
  have hfit : (2 ^ 32 * (n / 2 ^ 32 % d) + n % 2 ^ 32) / d < 2 ^ 32 := by
    rw [Nat.div_lt_iff_lt_mul (Nat.pos_of_ne_zero hd)]
    omega
  have hsum : (2 ^ 32 * (n / 2 ^ 32 % d) + n % 2 ^ 32) / d + 2 ^ 32 * (n / 2 ^ 32 / d) = n / d := by
    rw [← Nat.add_mul_div_right _ _ (Nat.pos_of_ne_zero hd)]
    congr 1
    have h1 : 2 ^ 32 * (d * (n / 2 ^ 32 / d) + n / 2 ^ 32 % d) = 2 ^ 32 * (n / 2 ^ 32) := by rw [Nat.div_add_mod]
    have h2 : 2 ^ 32 * (n / 2 ^ 32 / d) * d = 2 ^ 32 * (d * (n / 2 ^ 32 / d)) := by ring
    omega
  unfold udiv64
  rw [if_pos (Nat.div_eq_of_lt hlt), divl_eq hd hfit]
  simp only [Option.bind_eq_bind, Option.bind_some, Option.pure_def]
  rw [hsum, Nat.mod_eq_of_lt ((Nat.div_le_self n d).trans_lt hn)]

theorem shifted_div {s : ℕ} (hs : s ≤ 31) (hlt : d / 2 ^ 32 * 2 ^ s < 2 ^ 32) : d * 2 ^ s % 2 ^ 64 / 2 ^ 32 = d / 2 ^ (32 - s) := by
  have hpow : (2 : ℕ) ^ 32 = 2 ^ (32 - s) * 2 ^ s := by rw [← pow_add]; congr 1; omega
  have htop : d / 2 ^ 32 < 2 ^ (32 - s) := Nat.lt_of_mul_lt_mul_right (hlt.trans_eq hpow)
  have hd : d < 2 ^ (32 - s) * 2 ^ 32 := (Nat.div_lt_iff_lt_mul (by positivity)).1 htop
  have hfit : d * 2 ^ s < 2 ^ 64 :=
    calc d * 2 ^ s < 2 ^ (32 - s) * 2 ^ 32 * 2 ^ s := Nat.mul_lt_mul_of_pos_right hd (by positivity)
      _ = 2 ^ 64 := by rw [mul_right_comm, ← hpow, ← pow_add]
  rw [Nat.mod_eq_of_lt hfit, hpow, Nat.mul_div_mul_right _ _ (by positivity)]

theorem le_shifted {s : ℕ} (hs : s ≤ 31) (hbig : 2 ^ 31 ≤ d / 2 ^ 32 * 2 ^ s) : 2 ^ 31 ≤ d / 2 ^ (32 - s) := by
  rw [Nat.le_div_iff_mul_le (by positivity)]
  calc 2 ^ 31 * 2 ^ (32 - s) ≤ d / 2 ^ 32 * 2 ^ s * 2 ^ (32 - s) := Nat.mul_le_mul_right _ hbig
    _ = d / 2 ^ 32 * 2 ^ 32 := by rw [mul_assoc, ← pow_add]; congr 2; omega
    _ ≤ d := Nat.div_mul_le_self d _

theorem corrected (hn : n < 2 ^ 64) (hd : 0 < d) (hq : 0 < n / d) (hlow : n / d ≤ q) (hhigh : q ≤ n / d + 1) :
    (if (n + 2 ^ 64 - (q + (2 ^ 64 - 1)) % 2 ^ 64 * d % 2 ^ 64) % 2 ^ 64 < d then (q + (2 ^ 64 - 1)) % 2 ^ 64 else q) = n / d := by
  have hle : n / d ≤ n := Nat.div_le_self n d
  have hmul : n / d * d ≤ n := Nat.div_mul_le_self n d
  have hlt : n < (n / d + 1) * d := Nat.lt_mul_of_div_lt (Nat.lt_succ_self _) hd
  have hpred : (q + (2 ^ 64 - 1)) % 2 ^ 64 = q - 1 := by omega
  have hprod : (q - 1) * d ≤ n := (Nat.mul_le_mul_right d (by omega)).trans hmul
  rw [hpred, Nat.mod_eq_of_lt (hprod.trans_lt hn), show n + 2 ^ 64 - (q - 1) * d = n - (q - 1) * d + 2 ^ 64 by omega,
    Nat.add_mod_right, Nat.mod_eq_of_lt (by omega)]
  rcases Nat.lt_or_ge (n / d) q with h | h
  · obtain rfl : q = n / d + 1 := by omega
    rw [Nat.add_sub_cancel, if_pos]
    rw [Nat.add_mul, Nat.one_mul] at hlt
    omega
  · obtain rfl : q = n / d := by omega
    rw [if_neg]
    have : (n / d - 1) * d + d = n / d * d := by rw [← Nat.succ_mul, Nat.succ_eq_add_one, Nat.sub_add_cancel hq]
    omega

theorem udiv64_of_large (hn : n < 2 ^ 64) (hd : d < 2 ^ 64) (hle : 2 ^ 32 ≤ d) (hnd : d ≤ n) : udiv64 n d = some (n / d) := by
  obtain ⟨hs, hbig, hlt⟩ := nlz_spec (x := d / 2 ^ 32) (by omega) (by omega)
  unfold udiv64
  rw [if_neg (by omega), if_neg (by omega)]
  generalize nlz (d / 2 ^ 32) = s at *
  dsimp only
  have hv := le_shifted hs hbig
  have hw : 2 ^ (32 - s) = 2 * 2 ^ (31 - s) := by rw [← pow_succ']; congr 1; omega
  have hdecomp : 2 * (d / 2 ^ (32 - s) * 2 ^ (31 - s)) + d % 2 ^ (32 - s) = d := by
    rw [mul_left_comm, ← hw, mul_comm]
    exact Nat.div_add_mod d _
  have hfit : n / 2 / (d / 2 ^ (32 - s)) < 2 ^ 32 := by
    rw [Nat.div_lt_iff_lt_mul (by omega)]
    omega
  have hround : (n / d + 1) * (d % 2 ^ (32 - s)) ≤ 2 * (d / 2 ^ (32 - s) * 2 ^ (31 - s)) := by
    rw [mul_left_comm, ← hw, mul_comm (d / _)]
    refine rounded ⟨_, hw⟩ hv (Nat.mod_lt _ (by positivity)) ?_
    rw [Nat.div_add_mod]
    exact (Nat.div_mul_le_self n d).trans_lt hn
  have hest := estimate (n := n) (c := d / 2 ^ (32 - s) * 2 ^ (31 - s)) (e := d % 2 ^ (32 - s)) (by positivity)
  rw [hdecomp] at hest
  obtain ⟨hlow, hhigh⟩ := hest hround
  rw [shifted_div hs hlt, divl_eq (by omega) hfit]
  rw [← Nat.div_div_eq_div_mul] at hlow hhigh
  simp only [Option.bind_eq_bind, Option.bind_some, Option.pure_def, Option.some.injEq]
  exact corrected hn (by omega) (Nat.div_pos hnd (by omega)) hlow hhigh

theorem udiv64_eq (hn : n < 2 ^ 64) (hd : d < 2 ^ 64) (h0 : d ≠ 0) : udiv64 n d = some (n / d) := by
  rcases Nat.lt_or_ge d (2 ^ 32) with hlt | hle
  · exact udiv64_of_small hn h0 hlt
  · rcases Nat.lt_or_ge n d with hnd | hnd
    · unfold udiv64
      rw [if_neg (by omega), if_pos hnd, Nat.div_eq_of_lt hnd]
    · exact udiv64_of_large hn hd hle hnd

theorem uabs_eq {n : ℤ} (h : IsInt64 n) : uabs n = n.natAbs := by
  obtain ⟨h1, h2⟩ := h
  unfold uabs
  split_ifs with hn <;> omega

/-- The two ways in which `sdiv64` gives the quotient its sign. -/
theorem signed_quotient (h : q ≤ 2 ^ 63) :
    (q < 2 ^ 63 → (q : ℤ).bmod (2 ^ 64) = q) ∧ (-(q : ℤ).bmod (2 ^ 64)).bmod (2 ^ 64) = -q := by
  constructor
  · intro hq
    exact Int.bmod_eq_of_le (by omega) (by omega)
  · rw [Int.bmod_neg_bmod]
    exact Int.bmod_eq_of_le (by omega) (by omega)

theorem tdiv_eq_natAbs (n d : ℤ) :
    n.tdiv d = if n < 0 ↔ d < 0 then ((n.natAbs / d.natAbs : ℕ) : ℤ) else -((n.natAbs / d.natAbs : ℕ) : ℤ) := by
  rw [Int.ofNat_tdiv]
  rcases lt_or_ge n 0 with hn | hn <;> rcases lt_or_ge d 0 with hd | hd
  · rw [if_pos (by simp [hn, hd]), Int.ofNat_natAbs_of_nonpos hn.le, Int.ofNat_natAbs_of_nonpos hd.le, Int.neg_tdiv_neg]
  · rw [if_neg (by simp [hn, hd]), Int.ofNat_natAbs_of_nonpos hn.le, Int.natAbs_of_nonneg hd, Int.neg_tdiv, neg_neg]
  · rw [if_neg (by simp [hn, hd]), Int.natAbs_of_nonneg hn, Int.ofNat_natAbs_of_nonpos hd.le, Int.tdiv_neg, neg_neg]
  · rw [if_pos (by omega), Int.natAbs_of_nonneg hn, Int.natAbs_of_nonneg hd]

theorem sdiv64_eq {n d : ℤ} (hn : IsInt64 n) (hd : IsInt64 d) (h0 : d ≠ 0) (hmin : ¬ (n = -2 ^ 63 ∧ d = -1)) :
    sdiv64 n d = some (n.tdiv d) := by
  have hdpos : 0 < d.natAbs := Int.natAbs_pos.2 h0
  have hda : d.natAbs ≤ 2 ^ 63 := by obtain ⟨h1, h2⟩ := hd; omega
  obtain ⟨h1, h2⟩ := hn
  have hle : n.natAbs / d.natAbs ≤ n.natAbs := Nat.div_le_self _ _
  obtain ⟨hsame, hother⟩ := signed_quotient (q := n.natAbs / d.natAbs) (by omega)
  have hlt : (n < 0 ↔ d < 0) → n.natAbs / d.natAbs < 2 ^ 63 := by
    rcases Nat.lt_or_ge 1 d.natAbs with hd1 | hd1
    · rw [Nat.div_lt_iff_lt_mul hdpos]
      omega
    · omega
  unfold sdiv64
  rw [uabs_eq ⟨h1, h2⟩, uabs_eq hd, udiv64_eq (by omega) (by omega) hdpos.ne', tdiv_eq_natAbs]
  simp only [Option.bind_eq_bind, Option.bind_some, Option.pure_def, Option.some.injEq, hother]
  split_ifs with hsign
  · exact hsame (hlt hsign)
  · rfl

/-- **Quotients of 64 bits**: they are exact, and no `divl` traps. -/
theorem quotients_exact :
    (∀ n d : ℕ, n < 2 ^ 64 → d < 2 ^ 64 → d ≠ 0 → udiv64 n d = some (n / d)) ∧
    ∀ n d : ℤ, IsInt64 n → IsInt64 d → d ≠ 0 → ¬ (n = -2 ^ 63 ∧ d = -1) → sdiv64 n d = some (n.tdiv d) :=
  ⟨fun _ _ => udiv64_eq, fun _ _ => sdiv64_eq⟩

theorem quotients_exact_at_limits :
    udiv64 (2 ^ 64 - 1) (2 ^ 32 + 1) = some (2 ^ 32 - 1) ∧ sdiv64 (-2 ^ 63) 1 = some (-2 ^ 63) :=
  ⟨quotients_exact.1 (2 ^ 64 - 1) (2 ^ 32 + 1) (by decide) (by decide) (by decide),
    quotients_exact.2 (-2 ^ 63) 1 (by decide) (by decide) (by decide) (by decide)⟩

/-! ## Remainders -/

theorem umoddi3_eq (hn : n < 2 ^ 64) (hd : d < 2 ^ 64) (h0 : d ≠ 0) : umoddi3 n d = some (n % d % 2 ^ 32) := by
  have hdiv := Nat.div_add_mod n d
  unfold umoddi3 umod64
  rw [udiv64_eq hn hd h0]
  simp only [Option.bind_eq_bind, Option.bind_some, Option.pure_def, Option.some.injEq]
  rw [Nat.mod_eq_of_lt (a := d * (n / d)) (by omega), show n + 2 ^ 64 - d * (n / d) = n % d + 2 ^ 64 by omega,
    Nat.add_mod_right, Nat.mod_eq_of_lt (a := n % d) (by omega)]

theorem moddi3_eq {n d : ℤ} (hn : IsInt64 n) (hd : IsInt64 d) (h0 : d ≠ 0) (hmin : ¬ (n = -2 ^ 63 ∧ d = -1)) :
    moddi3 n d = some ((n.tmod d).bmod (2 ^ 32)) := by
  have hdiv := Int.mul_tdiv_add_tmod n d
  unfold moddi3 smod64
  rw [sdiv64_eq hn hd h0 hmin]
  simp only [Option.bind_eq_bind, Option.bind_some, Option.pure_def, Option.some.injEq]
  rw [show n - d * n.tdiv d = n.tmod d by omega, Int.bmod_bmod_of_dvd (by decide)]

/-- **Remainders pass through 32 bits**: they are right exactly where they fit. -/
theorem remainders_iff (n d : ℕ) (m c : ℤ) (hn : n < 2 ^ 64) (hd : d < 2 ^ 64) (h0 : d ≠ 0)
    (hm : IsInt64 m) (hc : IsInt64 c) (hc0 : c ≠ 0) (hmin : ¬ (m = -2 ^ 63 ∧ c = -1)) :
    (umoddi3 n d = some (n % d) ↔ n % d < 2 ^ 32) ∧
    (moddi3 m c = some (m.tmod c) ↔ -2 ^ 31 ≤ m.tmod c ∧ m.tmod c < 2 ^ 31) := by
  rw [umoddi3_eq hn hd h0, moddi3_eq hm hc hc0 hmin, Option.some.injEq, Option.some.injEq]
  constructor <;> constructor
  · intro h
    omega
  · exact Nat.mod_eq_of_lt
  · intro h
    have h1 := Int.le_bmod (x := m.tmod c) (m := 2 ^ 32) (by decide)
    have h2 := Int.bmod_lt (x := m.tmod c) (m := 2 ^ 32) (by decide)
    omega
  · rintro ⟨h1, h2⟩
    exact Int.bmod_eq_of_le (by omega) (by omega)

theorem remainders_iff_of_small :
    umoddi3 (2 ^ 64 - 1) 10 = some 5 ∧ moddi3 (-2 ^ 63) 10 = some (-8) := by
  have h := remainders_iff (2 ^ 64 - 1) 10 (-2 ^ 63) 10 (by decide) (by decide) (by decide) (by decide)
    (by decide) (by decide) (by decide)
  exact ⟨h.1.2 (by decide), h.2.2 (by decide)⟩

/-- 2³² modulo 2³³ is 0, and a negative remainder may come out positive. -/
theorem remainders_cut_off :
    umoddi3 (2 ^ 32) (2 ^ 33) = some 0 ∧ moddi3 (-2 ^ 31 - 1) (2 ^ 33) = some (2 ^ 31 - 1) := by
  decide

end Pintos.Arith
