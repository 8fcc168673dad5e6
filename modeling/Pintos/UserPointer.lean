/-
  The memory behind the pointer arguments of `exec`, `create`, `remove`, `open`, `read` and `write`
  (userprog/syscall.c).

  The handler passes a pointer to a call if its words are valid and the byte it points to is.  The call then
  goes through a name up to its NUL, or through a buffer whose length is another argument.
-/
import Pintos.Handler

namespace Pintos

open List

/-! ## Walks -/

section
variable {pd : PageDir} {p : ℕ} {reach : ℕ → Prop}

/-- A walk from `p` upwards reaches the byte `p + k` for the `k` in `reach`, and with it the
    bytes before. -/
def Walk (reach : ℕ → Prop) : Prop := ∀ k, reach (k + 1) → reach k

theorem Walk.le (hw : Walk reach) {j k : ℕ} (h : reach k) (hj : j ≤ k) : reach j := by
  induction k with
  | zero => obtain rfl : j = 0 := by omega
            exact h
  | succ k ih =>
    rcases Nat.lt_or_ge k j with hk | hk
    · obtain rfl : j = k + 1 := by omega
      exact h
    · exact ih (hw k h) hk

theorem Walk.lt (hw : Walk reach) (hp : p < physBase)
    (h : ∀ k, reach k → Valid pd (addr (p + k))) {k : ℕ} (hk : reach k) : p + k < physBase := by
  by_contra hge
  have hb : reach (physBase - p) := hw.le hk (by omega)
  have := (h _ hb).1
  rw [show p + (physBase - p) = physBase by omega] at this
  exact absurd this (by decide)

/-- **A walk from a checked pointer stays in valid memory exactly if** every page it enters
    passes the check. -/
theorem Walk.valid_iff (hw : Walk reach) (hp : checkUserPointer pd p = true) :
    (∀ k, reach k → Valid pd (addr (p + k))) ↔
      ∀ k, reach k → addr (p + k) % pgSize = 0 → checkUserPointer pd (addr (p + k)) = true := by
  obtain ⟨h0, hv⟩ := checkUserPointer_iff.1 hp
  constructor
  · intro h k hk _
    have hlt := hw.lt hv.1 h hk
    refine checkUserPointer_iff.2 ⟨?_, h k hk⟩
    simp only [addr, physBase] at hlt ⊢; omega
  · intro h k
    -- the next byte is in the same page, or it is the first of a page
    have hval : ∀ k, reach k → Valid pd (p + k) := by
      intro k
      induction k with
      | zero => exact fun _ => hv
      | succ k ih =>
        intro hk
        have hprev := ih (hw k hk)
        by_cases hpage : (p + k + 1) % pgSize = 0
        · have hlt := hprev.1
          have ha : addr (p + (k + 1)) = p + k + 1 := by
            simp only [addr, physBase] at hlt ⊢; omega
          have := h (k + 1) hk (by rwa [ha])
          rw [ha] at this
          exact (checkUserPointer_iff.1 this).2
        · exact hprev.next hpage
    intro hk
    have hk' := hval k hk
    have hlt := hk'.1
    rwa [addr, Nat.mod_eq_of_lt (by simp only [physBase] at hlt; omega)]

end

/-! ## Names and buffers -/

/-- The bytes of the name at `p`, up to its NUL: a byte is reached when those before it have
    been loaded and are not NUL. -/
def nameReach (S : Space) (p k : ℕ) : Prop := ∀ j < k, ∃ b, S.load (addr (p + j)) = some b ∧ b ≠ 0

/-- The pointer among the arguments. -/
def Call.pointerArg (c : Call) (args : List ℕ) : Option ℕ :=
  match c with
  | .exec | .create | .remove | .open => args[0]?
  | .read | .write => args[1]?
  | _ => none

/-- The bytes of the argument at `p`: of a name up to its NUL, of a buffer `length` many.  The
    buffer of `write` is also taken as a string, for `strlen`. -/
def Call.reach (c : Call) (S : Space) (args : List ℕ) (p k : ℕ) : Prop :=
  match c with
  | .exec | .create | .remove | .open => nameReach S p k
  | .read => ∃ length, args[2]? = some length ∧ k < length
  | .write => nameReach S p k ∨ ∃ length, args[2]? = some length ∧ k < length
  | _ => False

/-- The kernel accesses the address for the pointer argument of the call. -/
def Accessed (S : Space) (c : Call) (args : List ℕ) (a : ℕ) : Prop :=
  ∃ p, c.pointerArg args = some p ∧ ∃ k, c.reach S args p k ∧ a = addr (p + k)

theorem nameReach_walk (S : Space) (p : ℕ) : Walk (nameReach S p) := fun _ h j hj => h j (by omega)

theorem reach_walk (c : Call) (S : Space) (args : List ℕ) (p : ℕ) : Walk (c.reach S args p) := by
  have hl : Walk fun k => ∃ length, args[2]? = some length ∧ k < length := by
    rintro k ⟨n, hn, hk⟩
    exact ⟨n, hn, by omega⟩
  intro k h
  cases c with
  | exec | create | remove | «open» => exact nameReach_walk S p k h
  | read => exact hl k h
  | write => exact h.imp (nameReach_walk S p k) (hl k)
  | halt | exit | wait | filesize | seek | tell | close => exact h

variable {S : Space} {eax esp : ℕ} {c : Call} {args : List ℕ}

theorem pointersOk_of_call (h : effects (syscallHandler S eax esp).trace = [.call c args]) :
    PointersOk S.pd c.kinds args := by
  have h0 : esp ≠ 0 := by
    rintro rfl
    rw [syscallHandler_zero] at h; cases h
  have hv : WordValid S.pd esp := by
    by_contra hv
    have hi : isInvalidPt S.pd esp 1 = true := by
      by_contra hi
      exact hv ((isInvalidPt_words.1 (by simpa using hi)).2 0 Nat.one_pos)
    rw [syscallHandler, if_pos h0, hi] at h
    cases h
  obtain ⟨n, hn⟩ := Space.loadWord_of_valid hv
  have hs := stack_ne_zero hv
  cases hc : Call.ofNumber n with
  | none =>
    have hi : isInvalidPt S.pd esp 1 = false :=
      isInvalidPt_words.2 ⟨h0, fun i hi => by rwa [Nat.lt_one_iff.1 hi]⟩
    rw [syscallHandler, if_pos h0, hi, deref_eq, hn] at h
    change effects (.load (addr esp) :: (syscallExecute S eax n (addr (esp + 4))).trace) = _ at h
    rw [syscallExecute_eq S eax hs n, hc] at h
    cases h
  | some c' =>
    rw [syscallHandler_valid h0 hv hn hc, effects_load] at h
    by_cases ha : ArgsValid S esp c'
    · obtain ⟨-, args', -, -, h1, h2⟩ := syscallCase_dispatched eax hs ha
      by_cases hp : PointersOk S.pd c'.kinds args'
      · rw [h1 hp] at h
        obtain ⟨rfl, rfl⟩ : c' = c ∧ args' = args := by simpa using h
        exact hp
      · rw [h2 hp] at h; cases h
    · rw [syscallCase_trace, isInvalidPt_of_not_argsValid ha] at h
      cases h

theorem checkUserPointer_of_call (h : effects (syscallHandler S eax esp).trace = [.call c args]) {p : ℕ}
    (hp : c.pointerArg args = some p) : checkUserPointer S.pd p = true := by
  have hok := pointersOk_of_call h
  have hmem : (.pointer, p) ∈ c.kinds.zip args := by
    cases c with
    | exec | create | remove | «open» =>
      exact mem_of_getElem? (getElem?_zip_eq_some.2 ⟨rfl, hp⟩)
    | read | write => exact mem_of_getElem? (getElem?_zip_eq_some.2 ⟨rfl, hp⟩)
    | halt | exit | wait | filesize | seek | tell | close => cases hp
  exact hok (.pointer, p) hmem rfl

/-- **The argument lies in valid memory exactly if** every page it enters passes
    `check_user_pointer`. -/
theorem argument_valid_iff (h : effects (syscallHandler S eax esp).trace = [.call c args]) :
    (∀ a, Accessed S c args a → Valid S.pd a) ↔
      ∀ a, Accessed S c args a → a % pgSize = 0 → checkUserPointer S.pd a = true := by
  cases hp : c.pointerArg args with
  | none => simp [Accessed, hp]
  | some p =>
    have hacc : ∀ a, Accessed S c args a ↔ ∃ k, c.reach S args p k ∧ a = addr (p + k) := by
      intro a; simp [Accessed, hp]
    have := (reach_walk c S args p).valid_iff (checkUserPointer_of_call h hp)
    simp only [hacc]
    constructor
    · rintro h1 a ⟨k, hk, rfl⟩ ha
      exact this.1 (fun k hk => h1 _ ⟨k, hk, rfl⟩) k hk ha
    · rintro h1 a ⟨k, hk, rfl⟩
      exact this.2 (fun k hk ha => h1 _ ⟨k, hk, rfl⟩ ha) k hk

/-- A process with the stack page below `PHYS_BASE` and one page at `0x08048000`, whose byte at
    the offset `ofs` is the letter a.  It calls `open` with a pointer to that byte. -/
def openSpace (ofs : ℕ) : Space where
  pd := fun i =>
    if i = 767 then some fun j => if j = 1023 then 0x7 else 0
    else if i = 32 then some fun j => if j = 72 then 0x1007 else 0 else none
  byte := fun a =>
    if a = 0xc0000ff8 then 6 else if a = 0xc0000ffc then UInt8.ofNat (ofs % 256)
    else if a = 0xc0000ffd then UInt8.ofNat (0x80 + ofs / 256) else if a = 0xc0000ffe then 4
    else if a = 0xc0000fff then 8 else if a = 0xc0001000 + ofs then 97 else 0
  kernel := fun a => a < 0xc0400000

/-- A name of one letter inside of its page. -/
theorem argument_valid_inside :
    effects (syscallHandler (openSpace 8) 0 0xbffffff8).trace = [.call .open [0x08048008]] ∧
    ∀ a, Accessed (openSpace 8) .open [0x08048008] a → Valid (openSpace 8).pd a := by
  have h : effects (syscallHandler (openSpace 8) 0 0xbffffff8).trace = [.call .open [0x08048008]] := by decide
  refine ⟨h, (argument_valid_iff h).2 ?_⟩
  rintro a ⟨p, hp, k, hk, rfl⟩ ha
  obtain rfl : p = 0x08048008 := by simpa [Call.pointerArg] using hp.symm
  have hk2 : k < 2 := by
    by_contra hge
    obtain ⟨b, hb, hne⟩ := hk 1 (by omega)
    rw [show (openSpace 8).load (addr (0x08048008 + 1)) = some 0 by decide, Option.some.injEq] at hb
    exact hne hb.symm
  simp only [addr, pgSize] at ha
  omega

/-- A name that starts in the last byte of the only page. -/
theorem argument_leaves_page :
    effects (syscallHandler (openSpace 0xfff) 0 0xbffffff8).trace = [.call .open [0x08048fff]] ∧
    Accessed (openSpace 0xfff) .open [0x08048fff] 0x08049000 ∧ ¬ Valid (openSpace 0xfff).pd 0x08049000 := by
  refine ⟨by decide, ⟨0x08048fff, rfl, 1, fun j hj => ⟨97, ?_, by decide⟩, by decide⟩, by decide⟩
  obtain rfl : j = 0 := by omega
  decide

end Pintos
