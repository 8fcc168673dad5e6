/-
  Virtual addresses, page directories and the checks of user pointers (threads/vaddr.h, threads/pte.h,
  userprog/pagedir.c, userprog/syscall.c).

  Addresses are numbers below `2 ^ 32`.  A page directory has a page table or a null entry for every
  `pd_no`, and a page table an entry for every `pt_no`.
-/
import Mathlib.Tactic

namespace Pintos

/-- `PHYS_BASE`. -/
def physBase : ℕ := 0xc0000000

/-- `PGSIZE`. -/
def pgSize : ℕ := 4096

/-- Arithmetic on `void *`. -/
def addr (a : ℕ) : ℕ := a % 2 ^ 32

def pgOfs (va : ℕ) : ℕ := va % pgSize
def pgNo (va : ℕ) : ℕ := va / pgSize
def ptNo (va : ℕ) : ℕ := va / pgSize % 2 ^ 10
def pdNo (va : ℕ) : ℕ := va / 2 ^ 22

/-- A page directory: the page table of every entry that is not zero, with its entries. -/
abbrev PageDir := ℕ → Option (ℕ → ℕ)

/-- `PTE_P`. -/
def ptePresent (pte : ℕ) : Bool := pte % 2 == 1

def pteGetPage (pte : ℕ) : ℕ := physBase + (pte - pte % pgSize)

/-- `lookup_page (pd, vaddr, false)`. -/
def lookupPage (pd : PageDir) (vaddr : ℕ) : Option ℕ := (pd (pdNo vaddr)).map fun pt => pt (ptNo vaddr)

def pagedirGetPage (pd : PageDir) (uaddr : ℕ) : Option ℕ :=
  match lookupPage pd uaddr with
  | some pte => if ptePresent pte then some (pteGetPage pte + pgOfs uaddr) else none
  | none => none

/-- The address is a user address and mapped. -/
def Valid (pd : PageDir) (a : ℕ) : Prop := a < physBase ∧ (pagedirGetPage pd a).isSome = true

instance (pd : PageDir) (a : ℕ) : Decidable (Valid pd a) := inferInstanceAs (Decidable (_ ∧ _))

def checkUserPointer (pd : PageDir) (p : ℕ) : Bool :=
  if p = 0 then false
  else if physBase ≤ p then false
  else (pagedirGetPage pd p).isSome

/-- The loop of `is_invalid_pt`, with `n` turns left. -/
def isInvalidFrom (pd : PageDir) (pt i : ℕ) : ℕ → Bool
  | 0 => false
  | n + 1 =>
    if physBase ≤ addr (pt + i) ∨ (pagedirGetPage pd (addr (pt + i))).isNone then true
    else isInvalidFrom pd pt (i + 1) n

def isInvalidPt (pd : PageDir) (pt argNumber : ℕ) : Bool :=
  if pt = 0 then true else isInvalidFrom pd pt 0 (argNumber * 4)

/-! ## Memory -/

/-- What the kernel sees of memory when a process runs: its page directory, the bytes at the
    kernel addresses, and which kernel addresses are mapped. -/
structure Space where
  pd : PageDir
  byte : ℕ → UInt8
  kernel : ℕ → Bool

namespace Space

/-- Load a byte; `none` is a page fault. -/
def load (S : Space) (a : ℕ) : Option UInt8 :=
  if a < physBase then (pagedirGetPage S.pd a).map S.byte
  else if S.kernel a then some (S.byte a) else none

/-- Load a word of four bytes, the lowest first. -/
def loadWord (S : Space) (a : ℕ) : Option ℕ :=
  (S.load (addr a)).bind fun b0 => (S.load (addr (a + 1))).bind fun b1 =>
    (S.load (addr (a + 2))).bind fun b2 => (S.load (addr (a + 3))).map fun b3 =>
      b0.toNat + 2 ^ 8 * b1.toNat + 2 ^ 16 * b2.toNat + 2 ^ 24 * b3.toNat

end Space

/-! ## The checks -/

variable {pd : PageDir} {a b p pt : ℕ}

theorem mapped_iff_of_page (h : pgNo a = pgNo b) :
    (pagedirGetPage pd a).isSome = (pagedirGetPage pd b).isSome := by
  have h1 : pdNo a = pdNo b := by simp only [pdNo, pgNo, pgSize] at h ⊢; omega
  have h2 : ptNo a = ptNo b := by simp only [ptNo, pgNo] at h ⊢; rw [h]
  unfold pagedirGetPage lookupPage
  rw [h1, h2]
  cases pd (pdNo b) with
  | none => rfl
  | some t => simp only [Option.map_some]; split_ifs <;> rfl

theorem checkUserPointer_iff : checkUserPointer pd p = true ↔ p ≠ 0 ∧ Valid pd p := by
  unfold checkUserPointer Valid
  split_ifs with h0 h1
  · simp [h0]
  · simp only [false_iff, not_and]; omega
  · have : p < physBase := by omega
    simp [h0, this]

variable {n : ℕ}

theorem isInvalidFrom_eq_false : ∀ {i : ℕ}, isInvalidFrom pd pt i n = false ↔
    ∀ j, i ≤ j → j < i + n → Valid pd (addr (pt + j)) := by
  induction n with
  | zero => intro i; simp only [isInvalidFrom, true_iff]; intro j h1 h2; omega
  | succ n ih =>
    intro i
    rw [isInvalidFrom]
    split_ifs with h
    · simp only [false_iff, not_forall]
      refine ⟨i, le_refl i, by omega, fun hv => ?_⟩
      rcases h with h | h
      · exact absurd hv.1 (by omega)
      · rw [Option.isNone_iff_eq_none] at h
        simp [Valid, h] at hv
    · rw [ih]
      push Not at h
      have hi : Valid pd (addr (pt + i)) := ⟨h.1, by simpa [Option.isSome_iff_ne_none] using h.2⟩
      constructor
      · intro hj j h1 h2
        rcases Nat.eq_or_lt_of_le h1 with rfl | h1
        · exact hi
        · exact hj j h1 (by omega)
      · intro hj j h1 h2; exact hj j (by omega) (by omega)

theorem isInvalidPt_eq_false : isInvalidPt pd pt n = false ↔
    pt ≠ 0 ∧ ∀ j < n * 4, Valid pd (addr (pt + j)) := by
  unfold isInvalidPt
  split_ifs with h
  · simp [h]
  · rw [isInvalidFrom_eq_false]; simp [h]

theorem Space.load_of_valid {S : Space} (h : Valid S.pd a) : ∃ b, S.load a = some b := by
  obtain ⟨k, hk⟩ := Option.isSome_iff_exists.1 h.2
  exact ⟨S.byte k, by rw [Space.load, if_pos h.1, hk]; rfl⟩

/-! ## Words -/

/-- The four bytes of the word at `a` are valid. -/
def WordValid (pd : PageDir) (a : ℕ) : Prop := ∀ j < 4, Valid pd (addr (a + j))

instance (pd : PageDir) (a : ℕ) : Decidable (WordValid pd a) := inferInstanceAs (Decidable (∀ _ < _, _))

theorem addr_addr_add (a j : ℕ) : addr (addr a + j) = addr (a + j) := Nat.mod_add_mod ..

theorem wordValid_congr (h : addr a = addr b) : WordValid pd a ↔ WordValid pd b := by
  unfold WordValid
  simp only [← addr_addr_add a, ← addr_addr_add b, h]

@[simp] theorem wordValid_addr : WordValid pd (addr a) ↔ WordValid pd a :=
  wordValid_congr (Nat.mod_mod ..)

theorem Space.loadWord_congr (S : Space) (h : addr a = addr b) : S.loadWord a = S.loadWord b := by
  unfold Space.loadWord
  simp only [← addr_addr_add a, ← addr_addr_add b, h]

@[simp] theorem Space.loadWord_addr (S : Space) : S.loadWord (addr a) = S.loadWord a :=
  S.loadWord_congr (Nat.mod_mod ..)

theorem Space.loadWord_of_valid {S : Space} (h : WordValid S.pd a) : ∃ w, S.loadWord a = some w := by
  obtain ⟨b0, h₀⟩ := Space.load_of_valid (h 0 (by omega))
  obtain ⟨b1, h₁⟩ := Space.load_of_valid (h 1 (by omega))
  obtain ⟨b2, h₂⟩ := Space.load_of_valid (h 2 (by omega))
  obtain ⟨b3, h3⟩ := Space.load_of_valid (h 3 (by omega))
  rw [Nat.add_zero] at h₀
  exact ⟨_, by rw [Space.loadWord, h₀, h₁, h₂, h3]; rfl⟩

theorem isInvalidPt_words : isInvalidPt pd pt n = false ↔
    pt ≠ 0 ∧ ∀ i < n, WordValid pd (pt + 4 * i) := by
  rw [isInvalidPt_eq_false]
  refine and_congr_right fun _ => ⟨fun h i hi j hj => ?_, fun h j hj => ?_⟩
  · rw [Nat.add_assoc]; exact h (4 * i + j) (by omega)
  · have := h (j / 4) (by omega) (j % 4) (by omega)
    rwa [Nat.add_assoc, Nat.div_add_mod] at this

/-! ## Ranges -/

theorem Valid.next (h : Valid pd a) (hb : (a + 1) % pgSize ≠ 0) : Valid pd (a + 1) := by
  have hlt := h.1
  simp only [pgSize, physBase] at hb hlt
  refine ⟨by simp only [physBase]; omega, ?_⟩
  rw [mapped_iff_of_page (b := a) (by simp only [pgNo, pgSize]; omega)]
  exact h.2

end Pintos
