/-
  Bitmaps (lib/kernel/bitmap.c).

  A bitmap is its bits; those behind `bit_cnt`, in the last element, have a value too, as they
  are written to disk with the others.  The functions fail where an assertion of the source
  does.  `size_t` has 32 bits.
-/
import Mathlib.Tactic

namespace Pintos

open Function

/-- Why the kernel stops. -/
inductive Panic where
  /-- `check_sector` -/
  | pastEnd
  /-- `ASSERT (length >= 0)` in `inode_create` -/
  | length
  /-- `ASSERT (new_pos >= 0)` in `file_seek` -/
  | position
  /-- the assertions on ranges in bitmap.c -/
  | bitmap
  /-- `ASSERT (bitmap_all (..))` in `free_map_release` -/
  | release
  /-- the assertions of `inode_deny_write` and `inode_allow_write` -/
  | denyWrite
  | allowWrite
  /-- the free map or the root directory cannot be created, opened or read -/
  | format
  /-- a pointer to no object is followed -/
  | pointer
  /-- a loop of the model ran out of its bound -/
  | bound
  deriving DecidableEq, Repr

structure Bitmap where
  bitCnt : ℕ
  bits : ℕ → Bool

namespace Bitmap

def elemCnt (bitCnt : ℕ) : ℕ := (bitCnt + 31) / 32

def byteCnt (bitCnt : ℕ) : ℕ := 4 * elemCnt bitCnt

/-- `bitmap_test`. -/
def test (b : Bitmap) (idx : ℕ) : Except Panic Bool :=
  if idx < b.bitCnt then .ok (b.bits idx) else .error .bitmap

/-- `bitmap_mark`. -/
def mark (b : Bitmap) (idx : ℕ) : Bitmap := { b with bits := update b.bits idx true }

/-- `bitmap_reset`. -/
def reset (b : Bitmap) (idx : ℕ) : Bitmap := { b with bits := update b.bits idx false }

/-- `bitmap_set`. -/
def set (b : Bitmap) (idx : ℕ) (value : Bool) : Except Panic Bitmap :=
  if idx < b.bitCnt then .ok (if value then b.mark idx else b.reset idx) else .error .bitmap

/-- The assertions on a range: `start <= bit_cnt` and `start + cnt <= bit_cnt`. -/
def inRange (b : Bitmap) (start cnt : ℕ) : Bool :=
  start ≤ b.bitCnt && (start + cnt) % 2 ^ 32 ≤ b.bitCnt

/-- The loop of `bitmap_set_multiple`, with `n` turns left. -/
def setFrom (start : ℕ) (value : Bool) : ℕ → ℕ → Bitmap → Except Panic Bitmap
  | 0, _, b => .ok b
  | n + 1, i, b =>
    match b.set (start + i) value with
    | .ok b => setFrom start value n (i + 1) b
    | .error e => .error e

/-- `bitmap_set_multiple`. -/
def setMultiple (b : Bitmap) (start cnt : ℕ) (value : Bool) : Except Panic Bitmap :=
  if b.inRange start cnt then setFrom start value cnt 0 b else .error .bitmap

/-- The loop of `bitmap_contains`, with `n` turns left. -/
def containsFrom (b : Bitmap) (start : ℕ) (value : Bool) : ℕ → ℕ → Except Panic Bool
  | 0, _ => .ok false
  | n + 1, i =>
    match b.test (start + i) with
    | .ok v => if v == value then .ok true else containsFrom b start value n (i + 1)
    | .error e => .error e

/-- `bitmap_contains`. -/
def contains (b : Bitmap) (start cnt : ℕ) (value : Bool) : Except Panic Bool :=
  if b.inRange start cnt then b.containsFrom start value cnt 0 else .error .bitmap

/-- `bitmap_all`. -/
def all (b : Bitmap) (start cnt : ℕ) : Except Panic Bool :=
  match b.contains start cnt false with
  | .ok c => .ok (!c)
  | .error e => .error e

/-- The loop of `bitmap_scan`, with `n` turns left. -/
def scanFrom (b : Bitmap) (cnt : ℕ) (value : Bool) : ℕ → ℕ → Except Panic (Option ℕ)
  | 0, _ => .ok none
  | n + 1, i =>
    match b.contains i cnt (!value) with
    | .ok false => .ok (some i)
    | .ok true => scanFrom b cnt value n (i + 1)
    | .error e => .error e

/-- `bitmap_scan`; `none` is `BITMAP_ERROR`. -/
def scan (b : Bitmap) (start cnt : ℕ) (value : Bool) : Except Panic (Option ℕ) :=
  if start ≤ b.bitCnt then
    if cnt ≤ b.bitCnt then b.scanFrom cnt value (b.bitCnt - cnt + 1 - start) start else .ok none
  else .error .bitmap

/-- `bitmap_scan_and_flip`. -/
def scanAndFlip (b : Bitmap) (start cnt : ℕ) (value : Bool) : Except Panic (Option ℕ × Bitmap) :=
  match b.scan start cnt value with
  | .ok none => .ok (none, b)
  | .ok (some idx) =>
    match b.setMultiple idx cnt (!value) with
    | .ok b => .ok (some idx, b)
    | .error e => .error e
  | .error e => .error e

/-- `bitmap_create`; `junk` is what `malloc` gives for the elements. -/
def create (bitCnt : ℕ) (junk : ℕ → Bool) : Bitmap :=
  ⟨bitCnt, fun i => if i < bitCnt then false else junk i⟩

/-- The byte `k` of the elements. -/
def byte (b : Bitmap) (k : ℕ) : UInt8 :=
  UInt8.ofNat ((b.bits (8 * k)).toNat + 2 * (b.bits (8 * k + 1)).toNat + 4 * (b.bits (8 * k + 2)).toNat +
    8 * (b.bits (8 * k + 3)).toNat + 16 * (b.bits (8 * k + 4)).toNat + 32 * (b.bits (8 * k + 5)).toNat +
    64 * (b.bits (8 * k + 6)).toNat + 128 * (b.bits (8 * k + 7)).toNat)

/-- The bitmap with the given bytes as its elements, where `last_mask` clears the bits that are
    not used. -/
def ofBytes (bitCnt : ℕ) (l : List UInt8) : Bitmap :=
  ⟨bitCnt, fun i => decide (i < bitCnt) && (l[i / 8]?.getD 0).toNat / 2 ^ (i % 8) % 2 == 1⟩

/-! ## What the functions compute -/

variable {b : Bitmap} {start cnt : ℕ} {value : Bool}

/-- The bits of a range, set. -/
def fill (b : Bitmap) (start cnt : ℕ) (value : Bool) : Bitmap :=
  { b with bits := fun i => if start ≤ i ∧ i < start + cnt then value else b.bits i }

@[simp] theorem fill_bitCnt : (b.fill start cnt value).bitCnt = b.bitCnt := rfl

theorem fill_zero : b.fill start 0 value = b := by
  unfold fill
  congr
  funext i
  rw [if_neg (by omega)]

theorem fill_undo (h : ∀ x, start ≤ x → x < start + cnt → b.bits x = false) :
    (b.fill start cnt true).fill start cnt false = b := by
  obtain ⟨bitCnt, bits⟩ := b
  have : ∀ x, (if start ≤ x ∧ x < start + cnt then false else
      if start ≤ x ∧ x < start + cnt then true else bits x) = bits x := by
    intro x
    split_ifs with hx
    · exact (h x hx.1 hx.2).symm
    · rfl
  exact congrArg (Bitmap.mk bitCnt) (funext this)

theorem inRange_of_le (hb : b.bitCnt < 2 ^ 32) (h : start + cnt ≤ b.bitCnt) : b.inRange start cnt = true := by
  unfold inRange
  simp only [Bool.and_eq_true, decide_eq_true_eq]
  omega

theorem setFrom_eq : ∀ (n i : ℕ) (b : Bitmap), start + i + n ≤ b.bitCnt →
    setFrom start value n i b = .ok (b.fill (start + i) n value)
  | 0, i, b, _ => by rw [setFrom, fill_zero]
  | n + 1, i, b, h => by
    have hset : b.set (start + i) value = .ok (b.fill (start + i) 1 value) := by
      rw [Bitmap.set, if_pos (by omega)]
      congr 1
      have : ∀ v : Bool, (⟨b.bitCnt, update b.bits (start + i) v⟩ : Bitmap) = b.fill (start + i) 1 v := by
        intro v
        congr
        funext j
        rw [update_apply]
        by_cases hj : j = start + i
        · rw [if_pos hj, if_pos (by omega)]
        · rw [if_neg hj, if_neg (by omega)]
      cases value
      · exact this false
      · exact this true
    rw [setFrom, hset]
    dsimp only
    rw [setFrom_eq n (i + 1) _ (by rw [fill_bitCnt]; omega)]
    unfold fill
    congr
    funext j
    dsimp only
    by_cases hj : start + i ≤ j ∧ j < start + i + (n + 1)
    · rw [if_pos hj]
      by_cases hj' : start + (i + 1) ≤ j ∧ j < start + (i + 1) + n
      · rw [if_pos hj']
      · rw [if_neg hj', if_pos (by omega)]
    · rw [if_neg hj, if_neg (by omega), if_neg (by omega)]

theorem setMultiple_eq (hb : b.bitCnt < 2 ^ 32) (h : start + cnt ≤ b.bitCnt) :
    b.setMultiple start cnt value = .ok (b.fill start cnt value) := by
  rw [setMultiple, inRange_of_le hb h, if_pos rfl, setFrom_eq _ _ _ (by omega)]
  rfl

theorem containsFrom_eq : ∀ (n i : ℕ), start + i + n ≤ b.bitCnt →
    b.containsFrom start value n i = .ok (decide (∃ j < n, b.bits (start + i + j) = value))
  | 0, i, _ => by simp [containsFrom]
  | n + 1, i, h => by
    rw [containsFrom, test, if_pos (by omega)]
    dsimp only
    by_cases hv : b.bits (start + i) = value
    · have hex : ∃ j < n + 1, b.bits (start + i + j) = value := ⟨0, by omega, hv⟩
      rw [if_pos (by simpa using hv), decide_eq_true hex]
    · rw [if_neg (by simpa using hv), containsFrom_eq n (i + 1) (by omega)]
      congr 1
      refine decide_eq_decide.2 ⟨?_, ?_⟩
      · rintro ⟨j, h1, h2⟩
        exact ⟨j + 1, by omega, by rw [← h2]; congr 1; omega⟩
      · rintro ⟨j, h1, h2⟩
        cases j with
        | zero => exact absurd h2 hv
        | succ j => exact ⟨j, by omega, by rw [← h2]; congr 1; omega⟩

theorem contains_eq (hb : b.bitCnt < 2 ^ 32) (h : start + cnt ≤ b.bitCnt) :
    b.contains start cnt value = .ok (decide (∃ j < cnt, b.bits (start + j) = value)) := by
  rw [contains, inRange_of_le hb h, if_pos rfl, containsFrom_eq _ _ (by omega)]
  rfl

theorem all_eq (hb : b.bitCnt < 2 ^ 32) (h : start + cnt ≤ b.bitCnt)
    (hall : ∀ j < cnt, b.bits (start + j) = true) : b.all start cnt = .ok true := by
  rw [all, contains_eq hb h, decide_eq_false]
  · rfl
  · rintro ⟨j, hj, hv⟩
    rw [hall j hj] at hv; cases hv

theorem of_containsFrom {n i : ℕ} (h : b.containsFrom start value n i = .ok false) :
    ∀ j < n, start + i + j < b.bitCnt ∧ b.bits (start + i + j) = !value := by
  induction n generalizing i with
  | zero => exact fun j hj => absurd hj (Nat.not_lt_zero j)
  | succ n ih =>
    rw [containsFrom, test] at h
    by_cases hlt : start + i < b.bitCnt
    · rw [if_pos hlt] at h
      dsimp only at h
      by_cases hv : (b.bits (start + i) == value) = true
      · rw [if_pos hv] at h
        cases h
      · rw [if_neg hv] at h
        intro j hj
        rcases j with _ | j
        · refine ⟨hlt, ?_⟩
          exact Bool.eq_not.2 fun heq => hv (beq_iff_eq.2 heq)
        · have := ih h j (by omega)
          rwa [show start + (i + 1) + j = start + i + (j + 1) by omega] at this
    · rw [if_neg hlt] at h
      cases h

theorem of_all (h : b.all start cnt = .ok true) :
    start + cnt ≤ b.bitCnt ∧ ∀ j < cnt, b.bits (start + j) = true := by
  unfold all contains at h
  split_ifs at h with hrange
  · cases hc : b.containsFrom start false cnt 0 with
    | error e =>
      rw [hc] at h
      cases h
    | ok v =>
      rw [hc] at h
      obtain rfl : v = false := by simpa using h
      have hbits := of_containsFrom hc
      refine ⟨?_, fun j hj => (hbits j hj).2⟩
      rcases Nat.eq_zero_or_pos cnt with rfl | hpos
      · unfold inRange at hrange
        simp only [Bool.and_eq_true, decide_eq_true_eq] at hrange
        exact hrange.1
      · have := (hbits (cnt - 1) (by omega)).1
        omega

theorem scanFrom_spec (hb : b.bitCnt < 2 ^ 32) (cnt : ℕ) (value : Bool) : ∀ (n i : ℕ), n ≠ 0 → i + n + cnt ≤ b.bitCnt + 1 →
    (∃ k, b.scanFrom cnt value n i = .ok (some k) ∧ k + cnt ≤ b.bitCnt ∧ (∀ j < cnt, b.bits (k + j) = value) ∧
      ∀ k', i ≤ k' → k' < k → ∃ j < cnt, b.bits (k' + j) = !value) ∨
    (b.scanFrom cnt value n i = .ok none ∧
      ∀ k, i ≤ k → k < i + n → ∃ j < cnt, b.bits (k + j) = !value)
  | 0, _, h0, _ => absurd rfl h0
  | n + 1, i, _, h => by
    rw [scanFrom, contains_eq hb (by omega)]
    by_cases hc : ∃ j < cnt, b.bits (i + j) = !value
    · rw [decide_eq_true hc]
      rcases Nat.eq_zero_or_pos n with rfl | hn
      · refine .inr ⟨rfl, fun k h1 h2 => ?_⟩
        obtain rfl : k = i := by omega
        exact hc
      · rcases scanFrom_spec hb cnt value n (i + 1) (by omega) (by omega) with
          ⟨k, hk, hle, hval, hfirst⟩ | ⟨hk, hno⟩
        · refine .inl ⟨k, hk, hle, hval, fun k' h1 h2 => ?_⟩
          rcases Nat.eq_or_lt_of_le h1 with rfl | h1
          · exact hc
          · exact hfirst k' h1 h2
        · refine .inr ⟨hk, fun k h1 h2 => ?_⟩
          rcases Nat.eq_or_lt_of_le h1 with rfl | h1
          · exact hc
          · exact hno k h1 (by omega)
    · rw [decide_eq_false hc]
      refine .inl ⟨i, rfl, by omega, fun j hj => ?_, fun k' h1 h2 => absurd h2 (by omega)⟩
      by_contra hv
      exact hc ⟨j, hj, by cases value <;> simpa using hv⟩

theorem scanAndFlip_spec (hb : b.bitCnt < 2 ^ 32) (cnt : ℕ) :
    (∃ k, b.scanAndFlip 0 cnt false = .ok (some k, b.fill k cnt true) ∧ k + cnt ≤ b.bitCnt ∧
      (∀ j < cnt, b.bits (k + j) = false) ∧ ∀ k' < k, ∃ j < cnt, b.bits (k' + j) = true) ∨
    (b.scanAndFlip 0 cnt false = .ok (none, b) ∧
      ∀ k, k + cnt ≤ b.bitCnt → ∃ j < cnt, b.bits (k + j) = true) := by
  unfold scanAndFlip scan
  rw [if_pos (Nat.zero_le _)]
  by_cases hc : cnt ≤ b.bitCnt
  · rw [if_pos hc]
    rcases scanFrom_spec hb cnt false (b.bitCnt - cnt + 1 - 0) 0 (by omega) (by omega) with
      ⟨k, hk, hle, hfree, hfirst⟩ | ⟨hk, hno⟩
    · rw [hk]
      dsimp only
      rw [setMultiple_eq hb hle]
      exact .inl ⟨k, rfl, hle, hfree, fun k' hk' => hfirst k' (Nat.zero_le _) hk'⟩
    · rw [hk]
      exact .inr ⟨rfl, fun k hk => hno k (by omega) (by omega)⟩
  · rw [if_neg hc]
    exact .inr ⟨rfl, fun k hk => by omega⟩

theorem byte_bit (b : Bitmap) (k j : ℕ) (hj : j < 8) :
    (b.byte k).toNat / 2 ^ j % 2 = (b.bits (8 * k + j)).toNat := by
  have hle : ∀ i, (b.bits i).toNat ≤ 1 := fun i => Bool.toNat_le _
  have h0 := hle (8 * k)
  have h1 := hle (8 * k + 1)
  have h2 := hle (8 * k + 2)
  have h3 := hle (8 * k + 3)
  have h4 := hle (8 * k + 4)
  have h5 := hle (8 * k + 5)
  have h6 := hle (8 * k + 6)
  have h7 := hle (8 * k + 7)
  rw [byte, UInt8.toNat_ofNat']
  interval_cases j
  · simp only [Nat.add_zero, pow_zero, Nat.div_one]
    omega
  all_goals omega

theorem ofBytes_bits (b : Bitmap) {l : List UInt8} (hl : ∀ k < byteCnt b.bitCnt, l[k]? = some (b.byte k))
    {i : ℕ} (hi : i < b.bitCnt) : (ofBytes b.bitCnt l).bits i = b.bits i := by
  have hk : i / 8 < byteCnt b.bitCnt := by unfold byteCnt elemCnt; omega
  simp only [ofBytes, hi, decide_true, Bool.true_and, hl _ hk, Option.getD_some]
  rw [byte_bit b (i / 8) (i % 8) (by omega), Nat.div_add_mod]
  cases b.bits i <;> rfl

end Bitmap

end Pintos
