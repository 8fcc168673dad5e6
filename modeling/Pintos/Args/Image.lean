/-
  The stack of a process as a list of writes (`start_process` of userprog/process.c).

  `image m n` lists what is written for a matrix with strings in the rows below `n`: the strings, zeros up
  to a multiple of four, a null pointer, the pointers, `argv`, `argc` and the return address, each below the
  one before.
-/
import Pintos.Args.Stack
import Pintos.Lib.Writes

namespace Pintos.Args

open Lib Function List

/-! ## The writes -/

/-- The bytes of the strings in the rows from `i` on. -/
def size (m : Matrix) (n i : ℕ) : ℕ := ∑ k ∈ Finset.Ico i n, ((m.str k).length + 1)

/-- The address of the string of a row. -/
def stringAt (m : Matrix) (n i : ℕ) : ℕ := physBase - size m n i

/-- The strings of the rows below `i`, from the last one on. -/
def strings (m : Matrix) (n : ℕ) : ℕ → List (ℕ × List UInt8)
  | 0 => []
  | i + 1 => (stringAt m n i, m.str i ++ [0]) :: strings m n i

def workAlignCount (m : Matrix) (n : ℕ) : ℕ := 4 - size m n 0 % 4

/-- The address of the null pointer behind the pointers. -/
def nullAt (m : Matrix) (n : ℕ) : ℕ := physBase - size m n 0 - workAlignCount m n - 4

/-- The words below an address, from the last one on. -/
def pointers (commandP : ℕ → ℕ) : ℕ → ℕ → List (ℕ × List UInt8)
  | 0, _ => []
  | i + 1, a => (a - 4, ofWord (commandP i)) :: pointers commandP i (a - 4)

/-- `argv`, `argc` and the return address. -/
def frame (argv argc : ℕ) : List (ℕ × List UInt8) :=
  [(argv - 4, ofWord argv), (argv - 8, ofWord argc), (argv - 12, List.replicate 4 0)]

def image (m : Matrix) (n : ℕ) : List (ℕ × List UInt8) :=
  strings m n n ++
    ([(nullAt m n + 4, List.replicate (workAlignCount m n) 0), (nullAt m n, List.replicate 4 0)] ++
      (pointers (stringAt m n) n (nullAt m n) ++ frame (nullAt m n - 4 * n) n))

variable {m : Matrix} {behind : UInt8} {p : Push} {s : Stack} {mem : ℕ → UInt8} {n i j a : ℕ}

theorem size_self (m : Matrix) (n : ℕ) : size m n n = 0 := by
  rw [size, Finset.Ico_self, Finset.sum_empty]

theorem size_succ (m : Matrix) (h : i < n) : size m n i = (m.str i).length + 1 + size m n (i + 1) :=
  Finset.sum_eq_sum_Ico_succ_bot h _

theorem size_le (hlen : ∀ k < n, (m.str k).length ≤ 126) (i : ℕ) : size m n i ≤ 127 * (n - i) := by
  have h : ∀ k ∈ Finset.Ico i n, (m.str k).length + 1 ≤ 127 := by
    intro k hk
    have := hlen k (Finset.mem_Ico.1 hk).2
    omega
  calc size m n i ≤ (Finset.Ico i n).card • 127 := Finset.sum_le_card_nsmul _ _ _ h
    _ = 127 * (n - i) := by rw [Nat.card_Ico, smul_eq_mul, Nat.mul_comm]

/-! ## The writes are those of the loops -/

/-- The rows from `i` on are pushed. -/
structure RowsPushed (m : Matrix) (n i : ℕ) (p : Push) : Prop where
  sp : p.sp = stringAt m n i
  totalLength : p.totalLength = size m n i
  commandP : ∀ k, i ≤ k → k < n → p.commandP k = stringAt m n k
  commandAmount : p.commandAmount = if i < n then n else 0

theorem RowsPushed.row (behind : UInt8) (h : RowsPushed m n (i + 1) p) (hi : i < n) (hn : n ≤ 29) (hrow : m.str i ≠ [])
    (hend : m.str n = []) (hnext : i + 1 < n → m.str (i + 1) ≠ []) :
    RowsPushed m n i (pushRow m behind i p) ∧
      (pushRow m behind i p).mem = store p.mem (stringAt m n i) (m.str i ++ [0]) := by
  have hsp : p.sp - (m.str i).length - 1 = stringAt m n i := by
    rw [h.sp, stringAt, stringAt, size_succ m hi]
    omega
  unfold pushRow
  rw [if_pos fun h0 => hrow ((str_eq_nil m i).2 h0), hsp]
  refine ⟨⟨rfl, ?_, fun k h1 h2 => ?_, ?_⟩, rfl⟩
  · simp only [h.totalLength, size_succ m hi]
    omega
  · by_cases hk : k = i
    · rw [hk]
      exact update_self ..
    · exact (update_of_ne hk ..).trans (h.commandP k (by omega) h2)
  · simp only [h.commandAmount, show i + 1 < commandWidth by unfold commandWidth; omega, hi, if_true]
    -- the row behind is empty exactly for the last row
    by_cases hlast : i + 1 < n
    · rw [if_neg fun h0 => hnext hlast ((str_eq_nil m _).2 h0), if_pos hlast]
    · obtain rfl : n = i + 1 := by omega
      rw [if_pos ((str_eq_nil m _).1 hend)]

theorem pushRows_eq (behind : UInt8) (hn : n ≤ 29) (hrows : ∀ k < n, m.str k ≠ []) (hend : m.str n = []) (hi : i ≤ n) (h : RowsPushed m n i p) :
    RowsPushed m n 0 (pushRows m behind i p) ∧ (pushRows m behind i p).mem = write p.mem (strings m n i) := by
  induction i generalizing p with
  | zero => exact ⟨h, rfl⟩
  | succ i ih =>
    obtain ⟨hrow, hmem⟩ := h.row behind (by omega) hn (hrows i (by omega)) hend (hrows (i + 1))
    obtain ⟨hall, hmem'⟩ := ih (by omega) hrow
    exact ⟨hall, hmem'.trans (congrArg (write · (strings m n i)) hmem)⟩

theorem pushRows_empty (behind : UInt8) (h : ∀ k, n ≤ k → k < n + j → m.str k = []) : pushRows m behind (n + j) p = pushRows m behind n p := by
  induction j with
  | zero => rfl
  | succ j ih =>
    have hrow : pushRow m behind (n + j) p = p := if_neg fun h0 => h0 ((str_eq_nil m _).1 (h (n + j) (by omega) (by omega)))
    rw [← Nat.add_assoc, pushRows, hrow]
    exact ih fun k h1 h2 => h k h1 (by omega)

theorem pushPointers_eq {commandP : ℕ → ℕ} (h : 4 * n ≤ s.sp) :
    Stack.pushPointers commandP n s = ⟨write s.mem (pointers commandP n s.sp), s.sp - 4 * n⟩ := by
  induction n generalizing s with
  | zero => rfl
  | succ n ih =>
    rw [Stack.pushPointers, Stack.pushWord_eq (by omega), ih (by simp only; omega), Stack.mk.injEq]
    exact ⟨rfl, by simp only; omega⟩

theorem pushArgs_eq (h : RowsPushed m n 0 p) (hn : 0 < n) (hsize : size m n 0 ≤ 127 * n) (hn' : n ≤ 29)
    (hmem : p.mem = write mem (strings m n n)) :
    pushArgs p = ⟨write mem (image m n), nullAt m n - 4 * n - 12⟩ := by
  have hbase : physBase = 3221225472 := rfl
  have hd : workAlignCount m n = 4 - size m n 0 % 4 := rfl
  have hnull : nullAt m n = physBase - size m n 0 - workAlignCount m n - 4 := rfl
  have hsp : p.sp = physBase - size m n 0 := h.sp
  have hamount : p.commandAmount = n := h.commandAmount.trans (if_pos hn)
  have hpointers : ∀ (k a : ℕ), k ≤ n → pointers p.commandP k a = pointers (stringAt m n) k a := by
    intro k
    induction k with
    | zero => exact fun _ _ => rfl
    | succ k ih =>
      intro a hk
      rw [pointers, pointers, h.commandP k (Nat.zero_le k) (by omega), ih _ (by omega)]
  -- zeros and the null pointer
  have hzeros : Stack.pushZeros 4 (Stack.pushZeros (workAlignCount m n) p.toStack) =
      ⟨write p.mem [(nullAt m n + 4, replicate (workAlignCount m n) 0), (nullAt m n, replicate 4 0)], nullAt m n⟩ := by
    have hpad : Stack.pushZeros (workAlignCount m n) p.toStack =
        ⟨store p.mem (nullAt m n + 4) (replicate (workAlignCount m n) 0), nullAt m n + 4⟩ := by
      rw [Stack.pushZeros_eq (by omega), show p.toStack.sp - workAlignCount m n = nullAt m n + 4 by omega]
    rw [hpad, Stack.pushZeros_eq (by simp only; omega)]
    rfl
  -- the words below
  have hframe : ∀ mem' a, 12 ≤ a →
      Stack.pushZeros 4 ⟨store (Stack.pushWord ⟨mem', a⟩ a).mem ((Stack.pushWord ⟨mem', a⟩ a).sp - 4) (ofWord n),
        (Stack.pushWord ⟨mem', a⟩ a).sp - 4⟩ = ⟨write mem' (frame a n), a - 12⟩ := by
    intro mem' a ha
    rw [Stack.pushWord_eq (by simp only; omega), Stack.pushZeros_eq (by simp only; omega)]
    simp only [Nat.sub_sub, Nat.reduceAdd]
    rfl
  unfold pushArgs
  rw [hamount, h.totalLength, ← hd, hzeros]
  dsimp only
  rw [pushPointers_eq (by simp only; omega), hpointers n _ le_rfl]
  simp only [if_neg hn.ne']
  rw [hframe _ _ (by omega), hmem, image, write_append, write_append, write_append]

/-! ## The writes do not overlap -/

theorem strings_packed (hsize : size m n 0 ≤ physBase) (hi : i ≤ n) : Packed (strings m n i) (stringAt m n 0) (stringAt m n i) := by
  induction i with
  | zero => exact .nil le_rfl
  | succ i ih =>
    have hle : size m n i ≤ size m n 0 := Finset.sum_le_sum_of_subset (Finset.Ico_subset_Ico_left (Nat.zero_le i))
    have hstep := size_succ m (show i < n by omega)
    refine Packed.append (.singleton ?_) (ih (by omega))
    simp only [stringAt, length_append, length_singleton]
    omega

theorem pointers_packed (commandP : ℕ → ℕ) (h : 4 * n ≤ a) : Packed (pointers commandP n a) (a - 4 * n) a := by
  induction n generalizing a with
  | zero => exact .nil le_rfl
  | succ n ih =>
    have htail := ih (show 4 * n ≤ a - 4 by omega)
    rw [Nat.sub_sub, show 4 + 4 * n = 4 * (n + 1) by omega] at htail
    exact Packed.append (.singleton (by simp only [length_ofWord]; omega)) htail

theorem frame_packed (h : 12 ≤ a) : Packed (frame a n) (a - 12) a := by
  have h₁ : Packed [(a - 4, ofWord a)] (a - 4) a := .singleton (by simp only [length_ofWord]; omega)
  have h₂ : Packed [(a - 8, ofWord n)] (a - 8) (a - 4) := .singleton (by simp only [length_ofWord]; omega)
  have h3 : Packed [(a - 12, replicate 4 (0 : UInt8))] (a - 12) (a - 8) :=
    .singleton (by simp only [length_replicate]; omega)
  exact h₁.append (h₂.append h3)

theorem image_packed (hsize : size m n 0 ≤ 127 * n) (hn : n ≤ 29) :
    Packed (image m n) (nullAt m n - 4 * n - 12) physBase := by
  have hbase : physBase = 3221225472 := rfl
  have hd : workAlignCount m n = 4 - size m n 0 % 4 := rfl
  have hnull : nullAt m n = physBase - size m n 0 - workAlignCount m n - 4 := rfl
  have hstrings := strings_packed (m := m) (i := n) (by omega) le_rfl
  have hpad : Packed [(nullAt m n + 4, replicate (workAlignCount m n) (0 : UInt8))] (nullAt m n + 4) (stringAt m n 0) :=
    .singleton (by simp only [length_replicate, stringAt]; omega)
  have hzero : Packed [(nullAt m n, replicate 4 (0 : UInt8))] (nullAt m n) (nullAt m n + 4) :=
    .singleton (by simp only [length_replicate])
  have hpointers := pointers_packed (stringAt m n) (show 4 * n ≤ nullAt m n by omega)
  have hframe := frame_packed (n := n) (show 12 ≤ nullAt m n - 4 * n by omega)
  rw [show stringAt m n n = physBase by rw [stringAt, size_self, Nat.sub_zero]] at hstrings
  exact hstrings.append ((hpad.append hzero).append (hpointers.append hframe))

/-! ## What the program finds -/

theorem mem_strings (h : i < j) : (stringAt m n i, m.str i ++ [0]) ∈ strings m n j := by
  induction j with
  | zero => omega
  | succ j ih =>
    rcases Nat.lt_succ_iff_lt_or_eq.1 h with hlt | rfl
    · exact mem_cons_of_mem _ (ih hlt)
    · exact mem_cons_self

theorem mem_pointers (commandP : ℕ → ℕ) (h : i < n) : (a - 4 * n + 4 * i, ofWord (commandP i)) ∈ pointers commandP n a ∨ a < 4 * n := by
  induction n generalizing a with
  | zero => omega
  | succ n ih =>
    by_cases ha : a < 4 * (n + 1)
    · exact .inr ha
    · left
      rcases Nat.lt_succ_iff_lt_or_eq.1 h with hlt | rfl
      · rcases ih hlt with hmem | hsmall
        · rw [show a - 4 * (n + 1) + 4 * i = a - 4 - 4 * n + 4 * i by omega]
          exact mem_cons_of_mem _ hmem
        · omega
      · rw [show a - 4 * (i + 1) + 4 * i = a - 4 by omega]
        exact mem_cons_self

/-- The stack has been written for the rows below `n`; it is read by the calling convention of C. -/
structure StackImage (m : Matrix) (n : ℕ) (mem : ℕ → UInt8) (s : Stack) : Prop where
  written : s.mem = write mem (image m n)
  apart : (image m n).Pairwise Apart
  inside : ∀ w ∈ image m n, physBase - pgSize ≤ w.1 ∧ w.1 + w.2.length ≤ physBase
  sp_le : physBase - pgSize ≤ s.sp ∧ s.sp ≤ physBase
  sp_mod : s.sp % 4 = 0
  ret : word s.mem s.sp = 0
  argc : word s.mem (s.sp + 4) = n
  argv : ∀ i < n, slice s.mem (word s.mem (word s.mem (s.sp + 8) + 4 * i)) ((m.str i).length + 1) = m.str i ++ [0]
  null : word s.mem (word s.mem (s.sp + 8) + 4 * n) = 0

/-- **The initial stack.**  For a matrix with strings of at most 126 characters in the rows below `n`
    only, what is written for `n` arguments does not overlap and is in one page, and is decoded to
    the strings. -/
theorem stack_image (mem : ℕ → UInt8) (commandP : ℕ → ℕ) (behind : UInt8) (hn : 1 ≤ n) (hn' : n ≤ 29)
    (hrows : ∀ i < n, m.str i ≠ [] ∧ (m.str i).length ≤ 126) (hempty : ∀ i, n ≤ i → i ≤ 29 → m.str i = []) :
    StackImage m n mem (pushArgs (pushRows m behind commandWidth ⟨⟨mem, physBase⟩, commandP, 0, 0⟩)) := by
  have hbase : physBase = 3221225472 := rfl
  have hpg : pgSize = 4096 := rfl
  have hsize : size m n 0 ≤ 127 * n := size_le (fun k hk => (hrows k hk).2) 0
  have hd : workAlignCount m n = 4 - size m n 0 % 4 := rfl
  have hnull : nullAt m n = physBase - size m n 0 - workAlignCount m n - 4 := rfl
  -- the loops
  have hstart : RowsPushed m n n ⟨⟨mem, physBase⟩, commandP, 0, 0⟩ := by
    refine ⟨?_, (size_self m n).symm, fun k h1 h2 => absurd h1 (by omega), (if_neg (lt_irrefl n)).symm⟩
    rw [stringAt, size_self, Nat.sub_zero]
  obtain ⟨hpushed, hmem⟩ := pushRows_eq behind hn' (fun k hk => (hrows k hk).1) (hempty n le_rfl hn') le_rfl hstart
  have hall : pushRows m behind commandWidth ⟨⟨mem, physBase⟩, commandP, 0, 0⟩ =
      pushRows m behind n ⟨⟨mem, physBase⟩, commandP, 0, 0⟩ := by
    have := pushRows_empty (p := ⟨⟨mem, physBase⟩, commandP, 0, 0⟩) (m := m) (n := n) (j := 30 - n) behind
      fun k h1 h2 => hempty k h1 (by omega)
    rwa [Nat.add_sub_of_le (by omega)] at this
  rw [hall, pushArgs_eq hpushed hn hsize hn' hmem]
  -- each write is found again
  have hpacked := image_packed hsize hn'
  have hfound : ∀ w ∈ image m n, slice (write mem (image m n)) w.1 w.2.length = w.2 :=
    fun w hw => slice_write_of_mem hpacked.apart hw
  have hword : ∀ x v, (x, ofWord v) ∈ image m n → v < 2 ^ 32 → word (write mem (image m n)) x = v := by
    intro x v hx hv
    rw [word, show (4 : ℕ) = (ofWord v).length from (length_ofWord v).symm, hfound _ hx, toWord_ofWord hv]
  have hzero : ∀ x, (x, List.replicate 4 (0 : UInt8)) ∈ image m n → word (write mem (image m n)) x = 0 := by
    intro x hx
    have := hfound _ hx
    rw [length_replicate] at this
    rw [word, this]
    rfl
  set c := nullAt m n - 4 * n with hc
  have hargv : word (write mem (image m n)) (c - 12 + 8) = c := by
    rw [show c - 12 + 8 = c - 4 by omega]
    exact hword _ _ (by simp [image, frame, ← hc]) (by omega)
  refine ⟨rfl, hpacked.apart, fun w hw => ?_, ?_, ?_, ?_, ?_, fun i hi => ?_, ?_⟩
  · obtain ⟨h1, h2⟩ := hpacked.inside w hw
    exact ⟨by omega, h2⟩
  · dsimp only
    omega
  · dsimp only
    omega
  · exact hzero _ (by simp [image, frame, ← hc])
  · dsimp only
    rw [show c - 12 + 4 = c - 8 by omega]
    exact hword _ _ (by simp [image, frame, ← hc]) (by omega)
  · dsimp only
    have hpointer : (c + 4 * i, ofWord (stringAt m n i)) ∈ image m n := by
      have hmem := (mem_pointers (a := nullAt m n) (stringAt m n) hi).resolve_right (by omega)
      simp [image, hc, hmem]
    have hstring : (stringAt m n i, m.str i ++ [0]) ∈ image m n := by
      have hmem : (stringAt m n i, m.str i ++ [0]) ∈ strings m n n := mem_strings hi
      simp [image, hmem]
    have hlt : stringAt m n i < 2 ^ 32 := lt_of_le_of_lt (Nat.sub_le _ _) (by decide)
    rw [hargv, hword _ _ hpointer hlt]
    have := hfound _ hstring
    rwa [length_append, length_singleton] at this
  · dsimp only
    rw [hargv, show c + 4 * n = nullAt m n by omega]
    exact hzero _ (by simp [image])

/-- A matrix with the strings `echo`, `x` and `ab`. -/
def echoRows : Matrix := fun i j => ([[101, 99, 104, 111], [120], [97, 98]].getD i []).getD j 0

theorem stack_image_echo : echoRows.str 0 = [101, 99, 104, 111] ∧ echoRows.str 1 = [120] ∧ echoRows.str 2 = [97, 98] ∧
    StackImage echoRows 3 (fun _ => 0)
      (pushArgs (pushRows echoRows 1 commandWidth ⟨⟨fun _ => 0, physBase⟩, fun _ => 0, 0, 0⟩)) := by
  refine ⟨by decide, by decide, by decide, stack_image _ _ _ (by decide) (by decide) (by decide) fun i h1 _ => ?_⟩
  obtain ⟨k, rfl⟩ := Nat.exists_eq_add_of_le' h1
  rw [str_eq_nil]
  rfl

end Pintos.Args
