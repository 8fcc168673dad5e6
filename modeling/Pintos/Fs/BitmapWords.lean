/-
  Bitmaps as arrays of words (lib/kernel/bitmap.c).

  From the inside, a bitmap is an array of `elem_cnt (bit_cnt)` elements of 32 bits.  Single bits are
  changed by or, and and xor with a mask.  An index that is not in the array is a fault of its own.
-/
import Pintos.Fs.Bitmap

namespace Pintos

open List

/-- `struct bitmap`.  The bits fit into the elements: `elem_cnt` did not overflow. -/
structure WordMap where
  bitCnt : ℕ
  bits : List (BitVec 32)
  bitCnt_lt : bitCnt < 2 ^ 32
  /-- `elem_cnt`, in 32 bits -/
  length_eq : bits.length = (bitCnt + 31) % 2 ^ 32 / 32
  bitCnt_le : bitCnt ≤ 32 * bits.length

namespace WordMap

/-- `BITMAP_ERROR`. -/
def bitmapError : ℕ := 2 ^ 32 - 1

def elemIdx (bitIdx : ℕ) : ℕ := bitIdx / 32

def bitMask (bitIdx : ℕ) : BitVec 32 := 1#32 <<< (bitIdx % 32)

/-- `b->bits[idx] = f (b->bits[idx])`. -/
def update (b : WordMap) (idx : ℕ) (f : BitVec 32 → BitVec 32) : Except Panic WordMap :=
  match b.bits[idx]? with
  | none => .error .pointer
  | some w => .ok ⟨b.bitCnt, b.bits.set idx (f w), b.bitCnt_lt, by rw [List.length_set, b.length_eq], by rw [List.length_set]; exact b.bitCnt_le⟩

/-- `bitmap_mark`. -/
def mark (b : WordMap) (bitIdx : ℕ) : Except Panic WordMap := b.update (elemIdx bitIdx) fun w => w ||| bitMask bitIdx

/-- `bitmap_reset`. -/
def reset (b : WordMap) (bitIdx : ℕ) : Except Panic WordMap := b.update (elemIdx bitIdx) fun w => w &&& ~~~bitMask bitIdx

/-- `bitmap_flip`. -/
def flip (b : WordMap) (bitIdx : ℕ) : Except Panic WordMap := b.update (elemIdx bitIdx) fun w => w ^^^ bitMask bitIdx

/-- `bitmap_set`. -/
def set (b : WordMap) (idx : ℕ) (value : Bool) : Except Panic WordMap :=
  if idx < b.bitCnt then
    if value then b.mark idx else b.reset idx
  else .error .bitmap

/-- `bitmap_test`. -/
def test (b : WordMap) (idx : ℕ) : Except Panic Bool :=
  if idx < b.bitCnt then
    match b.bits[elemIdx idx]? with
    | none => .error .pointer
    | some w => .ok (w &&& bitMask idx != 0#32)
  else .error .bitmap

/-- The assertions on a range. -/
def inRange (b : WordMap) (start cnt : ℕ) : Bool := start ≤ b.bitCnt && (start + cnt) % 2 ^ 32 ≤ b.bitCnt

/-- The loop of `bitmap_set_multiple`, with `n` turns left. -/
def setFrom (start : ℕ) (value : Bool) : ℕ → ℕ → WordMap → Except Panic WordMap
  | 0, _, b => .ok b
  | n + 1, i, b =>
    match b.set ((start + i) % 2 ^ 32) value with
    | .ok b => setFrom start value n (i + 1) b
    | .error e => .error e

/-- `bitmap_set_multiple`. -/
def setMultiple (b : WordMap) (start cnt : ℕ) (value : Bool) : Except Panic WordMap :=
  if b.inRange start cnt then setFrom start value cnt 0 b else .error .bitmap

/-- The loop of `bitmap_count`, with `n` turns left. -/
def countFrom (b : WordMap) (start : ℕ) (value : Bool) : ℕ → ℕ → ℕ → Except Panic ℕ
  | 0, _, valueCnt => .ok valueCnt
  | n + 1, i, valueCnt =>
    match b.test ((start + i) % 2 ^ 32) with
    | .ok v => countFrom b start value n (i + 1) (if v == value then valueCnt + 1 else valueCnt)
    | .error e => .error e

/-- `bitmap_count`. -/
def count (b : WordMap) (start cnt : ℕ) (value : Bool) : Except Panic ℕ :=
  if b.inRange start cnt then b.countFrom start value cnt 0 0 else .error .bitmap

/-- The loop of `bitmap_contains`, with `n` turns left. -/
def containsFrom (b : WordMap) (start : ℕ) (value : Bool) : ℕ → ℕ → Except Panic Bool
  | 0, _ => .ok false
  | n + 1, i =>
    match b.test ((start + i) % 2 ^ 32) with
    | .ok v => if v == value then .ok true else containsFrom b start value n (i + 1)
    | .error e => .error e

/-- `bitmap_contains`. -/
def contains (b : WordMap) (start cnt : ℕ) (value : Bool) : Except Panic Bool :=
  if b.inRange start cnt then b.containsFrom start value cnt 0 else .error .bitmap

/-- `bitmap_any`. -/
def any (b : WordMap) (start cnt : ℕ) : Except Panic Bool := b.contains start cnt true

def bitmapNone (b : WordMap) (start cnt : ℕ) : Except Panic Bool := (b.contains start cnt true).map Bool.not

/-- `bitmap_all`. -/
def all (b : WordMap) (start cnt : ℕ) : Except Panic Bool := (b.contains start cnt false).map Bool.not

/-- The loop of `bitmap_scan`; it is a fault to take more turns than there are bits. -/
def scanLoop (b : WordMap) (cnt : ℕ) (value : Bool) (last : ℕ) : ℕ → ℕ → Except Panic ℕ
  | 0, _ => .error .bound
  | fuel + 1, i =>
    if i ≤ last then
      match b.contains i cnt (!value) with
      | .ok false => .ok i
      | .ok true => scanLoop b cnt value last fuel ((i + 1) % 2 ^ 32)
      | .error e => .error e
    else .ok bitmapError

/-- `bitmap_scan`. -/
def scan (b : WordMap) (start cnt : ℕ) (value : Bool) : Except Panic ℕ :=
  if start ≤ b.bitCnt then
    if cnt ≤ b.bitCnt then b.scanLoop cnt value (b.bitCnt - cnt) (b.bitCnt + 2) start else .ok bitmapError
  else .error .bitmap

/-- `bitmap_scan_and_flip`. -/
def scanAndFlip (b : WordMap) (start cnt : ℕ) (value : Bool) : Except Panic (ℕ × WordMap) :=
  match b.scan start cnt value with
  | .ok idx => if idx ≠ bitmapError then (b.setMultiple idx cnt (!value)).map fun b => (idx, b) else .ok (idx, b)
  | .error e => .error e

/-! ## Bits -/

variable {b b' : WordMap} {idx start cnt i : ℕ} {value : Bool}

def bit (b : WordMap) (i : ℕ) : Bool := (b.bits[i / 32]?.getD 0#32).getLsbD (i % 32)

/-- The bitmap from the outside. -/
def toBitmap (b : WordMap) : Bitmap := ⟨b.bitCnt, b.bit⟩

theorem getLsbD_bitMask (idx j : ℕ) : (bitMask idx).getLsbD j = decide (j = idx % 32) := by
  unfold bitMask
  rw [← BitVec.twoPow_eq, BitVec.getLsbD_twoPow]
  have hk : idx % 32 < 32 := Nat.mod_lt idx (by decide)
  simp [hk, eq_comm]

theorem exists_word (b : WordMap) (h : idx < b.bitCnt) : ∃ w, b.bits[elemIdx idx]? = some w := by
  have := b.bitCnt_le
  have hlt : elemIdx idx < b.bits.length := by
    unfold elemIdx
    omega
  exact ⟨_, getElem?_eq_getElem hlt⟩

theorem update_bit {f : BitVec 32 → BitVec 32} {g : Bool → Bool} (h : idx < b.bitCnt)
    (hf : ∀ w j, j < 32 → (f w).getLsbD j = if j = idx % 32 then g (w.getLsbD j) else w.getLsbD j) :
    ∃ b', b.update (elemIdx idx) f = .ok b' ∧ b'.toBitmap = ⟨b.bitCnt, Function.update b.bit idx (g (b.bit idx))⟩ := by
  obtain ⟨w, hw⟩ := b.exists_word h
  unfold update
  split
  · rename_i heq
    rw [hw] at heq
    cases heq
  · rename_i w' heq
    cases hw.symm.trans heq
    refine ⟨_, rfl, ?_⟩
    unfold toBitmap
    congr
    funext i
    rw [Function.update_apply]
    unfold bit elemIdx at *
    by_cases hi : i / 32 = idx / 32
    · have hlt := (List.getElem?_eq_some_iff.1 hw).1
      rw [hi, getElem?_set_self hlt, hw, Option.getD_some, Option.getD_some, hf w (i % 32) (Nat.mod_lt i (by decide))]
      by_cases he : i = idx
      · rw [if_pos (by rw [he]), if_pos he, he]
      · rw [if_neg (by omega), if_neg he]
    · rw [getElem?_set_ne (Ne.symm hi), if_neg fun he => hi (by rw [he])]

theorem mark_bit (h : idx < b.bitCnt) : ∃ b', b.mark idx = .ok b' ∧ b'.toBitmap = b.toBitmap.mark idx := by
  refine update_bit (g := fun _ => true) h fun w j hj => ?_
  rw [BitVec.getLsbD_or, getLsbD_bitMask]
  split_ifs with he <;> simp [he]

theorem reset_bit (h : idx < b.bitCnt) : ∃ b', b.reset idx = .ok b' ∧ b'.toBitmap = b.toBitmap.reset idx := by
  refine update_bit (g := fun _ => false) h fun w j hj => ?_
  rw [BitVec.getLsbD_and, BitVec.getLsbD_not, getLsbD_bitMask]
  split_ifs with he <;> simp [he, hj]

theorem flip_bit (h : idx < b.bitCnt) :
    ∃ b', b.flip idx = .ok b' ∧ b'.toBitmap = ⟨b.bitCnt, Function.update b.bit idx (!b.bit idx)⟩ := by
  refine update_bit h fun w j hj => ?_
  rw [BitVec.getLsbD_xor, getLsbD_bitMask]
  split_ifs with he <;> simp [he]

/-! ## The functions are those on bits -/

theorem test_eq (b : WordMap) (idx : ℕ) : b.test idx = b.toBitmap.test idx := by
  unfold test Bitmap.test
  by_cases h : idx < b.bitCnt
  · obtain ⟨w, hw⟩ := b.exists_word h
    rw [if_pos h, if_pos (show idx < b.toBitmap.bitCnt from h), hw]
    dsimp only
    have hbit : b.toBitmap.bits idx = w.getLsbD (idx % 32) := by
      change b.bit idx = _
      unfold bit
      unfold elemIdx at hw
      rw [hw, Option.getD_some]
    have hmask : (w &&& bitMask idx != 0#32) = w.getLsbD (idx % 32) := by
      cases hv : w.getLsbD (idx % 32) with
      | false =>
        rw [bne_eq_false_iff_eq]
        refine BitVec.eq_of_getLsbD_eq fun j hj => ?_
        rw [BitVec.getLsbD_and, getLsbD_bitMask]
        by_cases he : j = idx % 32
        · simp [he, hv]
        · simp [he]
      | true =>
        rw [bne_iff_ne]
        intro hzero
        have := congrArg (fun x => x.getLsbD (idx % 32)) hzero
        simp only [BitVec.getLsbD_and, getLsbD_bitMask, hv] at this
        simp at this
    rw [hbit, hmask]
  · rw [if_neg h, if_neg (show ¬idx < b.toBitmap.bitCnt from h)]

theorem set_eq (b : WordMap) (idx : ℕ) (value : Bool) : (b.set idx value).map toBitmap = b.toBitmap.set idx value := by
  unfold set Bitmap.set
  by_cases h : idx < b.bitCnt
  · rw [if_pos h, if_pos (show idx < b.toBitmap.bitCnt from h)]
    cases value with
    | false =>
      obtain ⟨b', hrun, hb'⟩ := reset_bit h
      rw [if_neg (by decide), if_neg (by decide), hrun, ← hb']
      rfl
    | true =>
      obtain ⟨b', hrun, hb'⟩ := mark_bit h
      rw [if_pos rfl, if_pos rfl, hrun, ← hb']
      rfl
  · rw [if_neg h, if_neg (show ¬idx < b.toBitmap.bitCnt from h)]
    rfl

theorem update_bitCnt {f : BitVec 32 → BitVec 32} (h : b.update i f = .ok b') : b'.bitCnt = b.bitCnt := by
  unfold update at h
  split at h
  · cases h
  · cases h
    rfl

theorem set_bitCnt (h : b.set idx value = .ok b') : b'.bitCnt = b.bitCnt := by
  unfold set at h
  split_ifs at h
  · exact update_bitCnt h
  · exact update_bitCnt h

theorem setFrom_eq (hb : start + i ≤ b.bitCnt) (n : ℕ) :
    (setFrom start value n i b).map toBitmap = Bitmap.setFrom start value n i b.toBitmap := by
  induction n generalizing i b with
  | zero => rfl
  | succ n ih =>
    have hlt := b.bitCnt_lt
    have hset := set_eq b (start + i) value
    rw [setFrom, Bitmap.setFrom, Nat.mod_eq_of_lt (by omega), ← hset]
    cases hrun : b.set (start + i) value with
    | error e => rfl
    | ok b' =>
      have hcnt := set_bitCnt hrun
      have hin : start + i < b.bitCnt := by
        by_contra hge
        rw [set, if_neg hge] at hrun
        cases hrun
      exact ih (by omega)

theorem setMultiple_eq (b : WordMap) (start cnt : ℕ) (value : Bool) :
    (b.setMultiple start cnt value).map toBitmap = b.toBitmap.setMultiple start cnt value := by
  unfold setMultiple Bitmap.setMultiple
  rw [show b.toBitmap.inRange start cnt = b.inRange start cnt from rfl]
  by_cases h : b.inRange start cnt = true
  · rw [if_pos h, if_pos h]
    simp only [inRange, Bool.and_eq_true, decide_eq_true_eq] at h
    exact setFrom_eq h.1 cnt
  · rw [if_neg h, if_neg h]
    rfl

theorem containsFrom_eq (hb : start + i ≤ b.bitCnt) (n : ℕ) : b.containsFrom start value n i = b.toBitmap.containsFrom start value n i := by
  induction n generalizing i with
  | zero => rfl
  | succ n ih =>
    have hlt := b.bitCnt_lt
    rw [containsFrom, Bitmap.containsFrom, Nat.mod_eq_of_lt (by omega), test_eq]
    by_cases hin : start + i < b.bitCnt
    · cases b.toBitmap.test (start + i) with
      | error e => rfl
      | ok v =>
        rw [ih (by omega)]
    · rw [Bitmap.test, if_neg (show ¬start + i < b.toBitmap.bitCnt from hin)]

theorem contains_eq (b : WordMap) (start cnt : ℕ) (value : Bool) : b.contains start cnt value = b.toBitmap.contains start cnt value := by
  unfold contains Bitmap.contains
  rw [show b.toBitmap.inRange start cnt = b.inRange start cnt from rfl]
  by_cases h : b.inRange start cnt = true
  · rw [if_pos h, if_pos h]
    simp only [inRange, Bool.and_eq_true, decide_eq_true_eq] at h
    exact containsFrom_eq h.1 cnt
  · rw [if_neg h, if_neg h]

theorem bitCnt_le_sub (b : WordMap) : b.bitCnt + 31 < 2 ^ 32 := by
  have h2 := b.length_eq
  have h3 := b.bitCnt_le
  omega

theorem scanLoop_eq {last fuel : ℕ} (hlast : last ≤ b.bitCnt) (n : ℕ) (hn : n = last + 1 - i) (hfuel : n < fuel) :
    b.scanLoop cnt value last fuel i = (b.toBitmap.scanFrom cnt value n i).map fun r => r.getD bitmapError := by
  induction n generalizing i fuel with
  | zero =>
    obtain ⟨fuel, rfl⟩ : ∃ k, fuel = k + 1 := ⟨fuel - 1, by omega⟩
    rw [scanLoop, if_neg (by omega)]
    rfl
  | succ n ih =>
    obtain ⟨fuel, rfl⟩ : ∃ k, fuel = k + 1 := ⟨fuel - 1, by omega⟩
    have hcnt := b.bitCnt_le_sub
    rw [scanLoop, Bitmap.scanFrom, if_pos (by omega), contains_eq, Nat.mod_eq_of_lt (by omega), ih (by omega) (by omega)]
    cases b.toBitmap.contains i cnt (!value) with
    | error e => rfl
    | ok c => cases c <;> rfl

theorem scan_eq (b : WordMap) (start cnt : ℕ) (value : Bool) :
    b.scan start cnt value = (b.toBitmap.scan start cnt value).map fun r => r.getD bitmapError := by
  unfold scan Bitmap.scan
  by_cases hstart : start ≤ b.bitCnt
  · rw [if_pos hstart, if_pos (show start ≤ b.toBitmap.bitCnt from hstart)]
    by_cases hcnt : cnt ≤ b.bitCnt
    · rw [if_pos hcnt, if_pos (show cnt ≤ b.toBitmap.bitCnt from hcnt)]
      exact scanLoop_eq (by omega) _ rfl (show b.bitCnt - cnt + 1 - start < _ by omega)
    · rw [if_neg hcnt, if_neg (show ¬cnt ≤ b.toBitmap.bitCnt from hcnt)]
      rfl
  · rw [if_neg hstart, if_neg (show ¬start ≤ b.toBitmap.bitCnt from hstart)]
    rfl

/-! ## What the functions compute -/

/-- Where a group of bits with the value begins, at `start` or behind it. -/
def groups (b : WordMap) (start cnt : ℕ) (value : Bool) : Set ℕ :=
  {i | start ≤ i ∧ i + cnt ≤ b.bitCnt ∧ ∀ j < cnt, b.bit (i + j) = value}

theorem of_map_eq {α β : Type} {x : Except Panic α} {f : α → β} {y : β} (h : x.map f = .ok y) : ∃ a, x = .ok a ∧ f a = y := by
  cases x with
  | error e => cases h
  | ok a => exact ⟨a, rfl, Except.ok.inj h⟩

theorem bits_of_toBitmap {bitCnt : ℕ} {bits : ℕ → Bool} (h : b.toBitmap = ⟨bitCnt, bits⟩) : b.bitCnt = bitCnt ∧ ∀ i, b.bit i = bits i :=
  ⟨congrArg Bitmap.bitCnt h, fun i => congrFun (congrArg Bitmap.bits h) i⟩

theorem set_bits (h : idx < b.bitCnt) (value : Bool) :
    ∃ b', b.set idx value = .ok b' ∧ b'.bitCnt = b.bitCnt ∧ ∀ i, b'.bit i = if i = idx then value else b.bit i := by
  have hset := set_eq b idx value
  have hbits : b.toBitmap.set idx value = .ok ⟨b.bitCnt, Function.update b.bit idx value⟩ := by
    rw [Bitmap.set, if_pos (show idx < b.toBitmap.bitCnt from h)]
    cases value <;> rfl
  obtain ⟨b', hrun, hb'⟩ := of_map_eq (hset.trans hbits)
  obtain ⟨hcnt, hbit⟩ := bits_of_toBitmap hb'
  exact ⟨b', hrun, hcnt, fun i => (hbit i).trans (Function.update_apply ..)⟩

theorem flip_bits (h : idx < b.bitCnt) :
    ∃ b', b.flip idx = .ok b' ∧ b'.bitCnt = b.bitCnt ∧ ∀ i, b'.bit i = if i = idx then !b.bit i else b.bit i := by
  obtain ⟨b', hrun, hb'⟩ := flip_bit h
  obtain ⟨hcnt, hbit⟩ := bits_of_toBitmap hb'
  refine ⟨b', hrun, hcnt, fun i => (hbit i).trans ?_⟩
  rw [Function.update_apply]
  split_ifs with he
  · rw [he]
  · rfl

theorem setMultiple_bits (h : start + cnt ≤ b.bitCnt) (value : Bool) : ∃ b', b.setMultiple start cnt value = .ok b' ∧
    b'.bitCnt = b.bitCnt ∧ ∀ i, b'.bit i = if start ≤ i ∧ i < start + cnt then value else b.bit i := by
  have hset := setMultiple_eq b start cnt value
  rw [Bitmap.setMultiple_eq b.bitCnt_lt h] at hset
  obtain ⟨b', hrun, hb'⟩ := of_map_eq hset
  obtain ⟨hcnt, hbit⟩ := bits_of_toBitmap hb'
  exact ⟨b', hrun, hcnt, hbit⟩

theorem countFrom_eq {c : ℕ} (n : ℕ) (hn : start + i + n ≤ b.bitCnt) :
    b.countFrom start value n i c = .ok (c + (List.range n).countP fun j => b.bit (start + i + j) == value) := by
  induction n generalizing i c with
  | zero => rfl
  | succ n ih =>
    have hlt := b.bitCnt_lt
    rw [countFrom, Nat.mod_eq_of_lt (by omega), test_eq, Bitmap.test, if_pos (show start + i < b.toBitmap.bitCnt by change _ < b.bitCnt; omega)]
    dsimp only
    have hshift : (range n).countP (fun j => b.bit (start + (i + 1) + j) == value) =
        ((range n).map Nat.succ).countP fun j => b.bit (start + i + j) == value := by
      rw [countP_map]
      refine countP_congr fun j _ => ?_
      rw [Function.comp_apply, show start + (i + 1) + j = start + i + j.succ by omega]
    rw [ih (by omega), range_succ_eq_map, countP_cons, hshift]
    have hbit : b.toBitmap.bits (start + i) = b.bit (start + i + 0) := rfl
    rw [hbit]
    congr 1
    split_ifs <;> omega

theorem count_eq (h : start + cnt ≤ b.bitCnt) (value : Bool) :
    b.count start cnt value = .ok ((List.range cnt).countP fun j => b.bit (start + j) == value) := by
  have hrange : b.toBitmap.inRange start cnt = true := Bitmap.inRange_of_le b.bitCnt_lt h
  rw [count, show b.inRange start cnt = true from hrange, if_pos rfl, countFrom_eq cnt (by omega), Nat.zero_add]
  rfl

theorem contains_bits (h : start + cnt ≤ b.bitCnt) (value : Bool) :
    b.contains start cnt value = .ok (decide (∃ j < cnt, b.bit (start + j) = value)) := by
  rw [contains_eq, Bitmap.contains_eq b.bitCnt_lt h]
  rfl

theorem le_of_scanFrom {bm : Bitmap} {n k : ℕ} (h : bm.scanFrom cnt value n i = .ok (some k)) : i ≤ k := by
  induction n generalizing i with
  | zero => cases h
  | succ n ih =>
    rw [Bitmap.scanFrom] at h
    split at h
    · cases h
      exact le_rfl
    · exact Nat.le_of_succ_le (ih h)
    · cases h

theorem scan_least (h : start ≤ b.bitCnt) (cnt : ℕ) (value : Bool) :
    (∃ r, b.scan start cnt value = .ok r ∧ r ≠ bitmapError ∧ IsLeast (b.groups start cnt value) r) ∨
      b.scan start cnt value = .ok bitmapError ∧ b.groups start cnt value = ∅ := by
  have hlt := b.bitCnt_le_sub
  rw [scan_eq, Bitmap.scan, if_pos (show start ≤ b.toBitmap.bitCnt from h)]
  by_cases hcnt : cnt ≤ b.bitCnt
  · rw [if_pos (show cnt ≤ b.toBitmap.bitCnt from hcnt)]
    by_cases hn : b.bitCnt - cnt + 1 - start = 0
    · refine .inr ⟨?_, ?_⟩
      · rw [show b.toBitmap.bitCnt - cnt + 1 - start = 0 from hn]
        rfl
      · refine Set.eq_empty_iff_forall_notMem.2 fun i hi => ?_
        obtain ⟨h1, h2, -⟩ := hi
        omega
    · rcases Bitmap.scanFrom_spec (b := b.toBitmap) b.bitCnt_lt cnt value (b.bitCnt - cnt + 1 - start) start hn
        (show start + (b.bitCnt - cnt + 1 - start) + cnt ≤ b.bitCnt + 1 by omega) with ⟨k, hk, hle, hval, hfirst⟩ | ⟨hk, hno⟩
      · have hle : k + cnt ≤ b.bitCnt := hle
        refine .inl ⟨k, ?_, ?_, ⟨le_of_scanFrom hk, hle, hval⟩, fun i hi => ?_⟩
        · rw [show b.toBitmap.bitCnt - cnt + 1 - start = b.bitCnt - cnt + 1 - start from rfl, hk]
          rfl
        · unfold bitmapError
          omega
        · obtain ⟨h1, -, h3⟩ := hi
          by_contra hlt
          obtain ⟨j, hj, hv⟩ := hfirst i h1 (by omega)
          have := h3 j hj
          change b.bit (i + j) = !value at hv
          rw [hv] at this
          simp at this
      · refine .inr ⟨?_, ?_⟩
        · rw [show b.toBitmap.bitCnt - cnt + 1 - start = b.bitCnt - cnt + 1 - start from rfl, hk]
          rfl
        · refine Set.eq_empty_iff_forall_notMem.2 fun i hi => ?_
          obtain ⟨h1, h2, h3⟩ := hi
          obtain ⟨j, hj, hv⟩ := hno i h1 (by omega)
          have := h3 j hj
          change b.bit (i + j) = !value at hv
          rw [hv] at this
          simp at this
  · rw [if_neg (show ¬cnt ≤ b.toBitmap.bitCnt from hcnt)]
    refine .inr ⟨rfl, Set.eq_empty_iff_forall_notMem.2 fun i hi => ?_⟩
    obtain ⟨-, h2, -⟩ := hi
    omega

theorem scanAndFlip_least (h : start ≤ b.bitCnt) (cnt : ℕ) (value : Bool) :
    (∃ r b', b.scanAndFlip start cnt value = .ok (r, b') ∧ r ≠ bitmapError ∧ IsLeast (b.groups start cnt value) r ∧ b'.bitCnt = b.bitCnt ∧
      ∀ i, b'.bit i = if r ≤ i ∧ i < r + cnt then !b.bit i else b.bit i) ∨
      b.scanAndFlip start cnt value = .ok (bitmapError, b) ∧ b.groups start cnt value = ∅ := by
  rcases scan_least h cnt value with ⟨r, hrun, hne, hleast⟩ | ⟨hrun, hnone⟩
  · obtain ⟨-, hle, hval⟩ := hleast.1
    obtain ⟨b', hset, hcnt, hbits⟩ := setMultiple_bits hle (!value)
    refine .inl ⟨r, b', ?_, hne, hleast, hcnt, fun i => ?_⟩
    · unfold scanAndFlip
      rw [hrun]
      dsimp only
      rw [if_pos hne, hset]
      rfl
    · rw [hbits]
      split_ifs with hi
      · obtain ⟨j, rfl⟩ := Nat.exists_eq_add_of_le hi.1
        rw [hval j (by omega)]
      · rfl
  · refine .inr ⟨?_, hnone⟩
    unfold scanAndFlip
    rw [hrun]
    dsimp only
    rw [if_neg (by simp)]

/-- **Bitmaps of words are arrays of bits.**  Single bits and ranges are set and flipped, counted and tested as they are, and the scan
gives the first group. -/
theorem words_are_bits (b : WordMap) :
    (∀ idx < b.bitCnt, ∀ value, ∃ b', b.set idx value = .ok b' ∧ b'.bitCnt = b.bitCnt ∧
      ∀ i, b'.bit i = if i = idx then value else b.bit i) ∧
    (∀ idx < b.bitCnt, ∃ b', b.flip idx = .ok b' ∧ b'.bitCnt = b.bitCnt ∧ ∀ i, b'.bit i = if i = idx then !b.bit i else b.bit i) ∧
    (∀ start cnt, start + cnt ≤ b.bitCnt →
      (∀ value, ∃ b', b.setMultiple start cnt value = .ok b' ∧ b'.bitCnt = b.bitCnt ∧
        ∀ i, b'.bit i = if start ≤ i ∧ i < start + cnt then value else b.bit i) ∧
      (∀ value, b.count start cnt value = .ok ((List.range cnt).countP fun j => b.bit (start + j) == value)) ∧
      (∀ value, b.contains start cnt value = .ok (decide (∃ j < cnt, b.bit (start + j) = value))) ∧
      b.any start cnt = .ok (decide (∃ j < cnt, b.bit (start + j) = true)) ∧
      b.bitmapNone start cnt = .ok (decide (∀ j < cnt, b.bit (start + j) = false)) ∧
      b.all start cnt = .ok (decide (∀ j < cnt, b.bit (start + j) = true))) ∧
    (∀ start ≤ b.bitCnt, ∀ cnt value,
      ((∃ r, b.scan start cnt value = .ok r ∧ r ≠ bitmapError ∧ IsLeast (b.groups start cnt value) r) ∨
        b.scan start cnt value = .ok bitmapError ∧ b.groups start cnt value = ∅) ∧
      ((∃ r b', b.scanAndFlip start cnt value = .ok (r, b') ∧ r ≠ bitmapError ∧ IsLeast (b.groups start cnt value) r ∧
        b'.bitCnt = b.bitCnt ∧ ∀ i, b'.bit i = if r ≤ i ∧ i < r + cnt then !b.bit i else b.bit i) ∨
        b.scanAndFlip start cnt value = .ok (bitmapError, b) ∧ b.groups start cnt value = ∅)) := by
  refine ⟨fun idx h => set_bits h, fun idx h => flip_bits h, fun start cnt h => ⟨setMultiple_bits h, count_eq h, contains_bits h,
    contains_bits h true, ?_, ?_⟩, fun start h cnt value => ⟨scan_least h cnt value, scanAndFlip_least h cnt value⟩⟩
  · rw [bitmapNone, contains_bits h, Except.map, ← decide_not]
    exact congrArg Except.ok (decide_eq_decide.2 (by simp))
  · rw [all, contains_bits h, Except.map, ← decide_not]
    exact congrArg Except.ok (decide_eq_decide.2 (by simp))

end WordMap

end Pintos
