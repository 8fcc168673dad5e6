/-
  Moving memory and splitting strings (`memmove` and `strtok_r` of lib/string.c).

  Memory has a byte for every address.  The loops of `strtok_r` have fuel: a string that does not end is
  a result of its own.
-/
import Pintos.Lib.Words
import Mathlib.Tactic

namespace Pintos.Strings

open Lib Function List

abbrev Memory := ℕ → UInt8

variable {m m' : Memory} {dst src size s n : ℕ}

/-! ## memmove -/

/-- `while (size-- > 0) *dst++ = *src++`: the pointer `dst` behind it, and the memory. -/
def copyUp : ℕ → ℕ → ℕ → Memory → ℕ × Memory
  | 0, dst, _, m => (dst, m)
  | size + 1, dst, src, m => copyUp size (dst + 1) (src + 1) (update m dst (m src))

/-- `while (size-- > 0) *--dst = *--src`. -/
def copyDown : ℕ → ℕ → ℕ → Memory → ℕ × Memory
  | 0, dst, _, m => (dst, m)
  | size + 1, dst, src, m => copyDown size (dst - 1) (src - 1) (update m (dst - 1) (m (src - 1)))

/-- `memmove`: what it returns and the memory; nothing where an assertion fails. -/
def memmove (dst src size : ℕ) (m : Memory) : Option (ℕ × Memory) :=
  if (dst ≠ 0 ∨ size = 0) ∧ (src ≠ 0 ∨ size = 0) then
    if dst < src then some (copyUp size dst src m) else some (copyDown size (dst + size) (src + size) m)
  else none

/-- The bytes of one range are those of the other before. -/
def moved (dst src size : ℕ) (m : Memory) : Memory := fun x =>
  if dst ≤ x ∧ x < dst + size then m (src + (x - dst)) else m x

theorem moved_zero : moved dst src 0 m = m := by
  funext x
  exact if_neg (by omega)

theorem copyUp_eq (h : dst < src) : copyUp size dst src m = (dst + size, moved dst src size m) := by
  induction size generalizing dst src m with
  | zero => rw [copyUp, moved_zero]; rfl
  | succ size ih =>
    rw [copyUp, ih (by omega), Nat.add_right_comm dst 1 size]
    refine congrArg (Prod.mk _) (funext fun x => ?_)
    unfold moved
    by_cases hx : x = dst
    · subst hx
      rw [if_neg (by omega), if_pos (by omega), update_self, Nat.sub_self]
      rfl
    · -- the bytes that are read next are behind the one that was written
      by_cases hin : dst + 1 ≤ x ∧ x < dst + 1 + size
      · rw [if_pos hin, if_pos (by omega), update_of_ne (by omega), show src + 1 + (x - (dst + 1)) = src + (x - dst) by omega]
      · rw [if_neg hin, if_neg (by omega), update_of_ne hx]

theorem copyDown_eq (h : src ≤ dst) : copyDown size (dst + size) (src + size) m = (dst, moved dst src size m) := by
  induction size generalizing m with
  | zero => rw [copyDown, moved_zero]; rfl
  | succ size ih =>
    rw [copyDown, ← Nat.add_assoc, ← Nat.add_assoc, Nat.add_sub_cancel, Nat.add_sub_cancel, ih]
    refine congrArg (Prod.mk _) (funext fun x => ?_)
    unfold moved
    by_cases hx : x = dst + size
    · rw [hx, if_neg (by omega), if_pos (by omega), update_self, Nat.add_sub_cancel_left]
    · by_cases hin : dst ≤ x ∧ x < dst + size
      · rw [if_pos hin, if_pos (by omega), update_of_ne (by omega)]
      · rw [if_neg hin, if_neg (by omega), update_of_ne hx]

/-- **Moving memory.**  However the ranges overlap the bytes are moved; but copying upwards `memmove` returns the
    end of the range. -/
theorem memmove_iff (dst src size : ℕ) (m : Memory) :
    (∀ r, memmove dst src size m = some r → r.2 = moved dst src size m) ∧
    (memmove dst src size m = some (dst, moved dst src size m) ↔ size = 0 ∨ dst ≠ 0 ∧ src ≠ 0 ∧ src ≤ dst) := by
  unfold memmove
  split_ifs with hnull hlt
  · rw [copyUp_eq hlt]
    refine ⟨fun r hr => ?_, ?_⟩
    · rw [← Option.some.inj hr]
    · rw [Option.some.injEq, Prod.mk.injEq, and_iff_left rfl]
      omega
  · rw [copyDown_eq (Nat.le_of_not_lt hlt)]
    refine ⟨fun r hr => ?_, iff_of_true rfl ?_⟩
    · rw [← Option.some.inj hr]
    · omega
  · refine ⟨nofun, iff_of_false nofun ?_⟩
    omega

/-- Four bytes are moved down by one. -/
theorem memmove_returns_end : (memmove 100 101 4 fun x => UInt8.ofNat x).map Prod.fst = some 104 := by decide

/-! ## strtok_r -/

/-- `strchr`, of a string that is given by the characters before its null byte: the index. -/
def strchr (c : UInt8) : List UInt8 → ℕ → Option ℕ
  | [], i => if c = 0 then some i else none
  | x :: l, i => if x = c then some i else strchr c l (i + 1)

/-- The first loop: the place where it ends, and whether that is the null byte. -/
def skipDelimiters (delimiters : List UInt8) (m : Memory) : ℕ → ℕ → Option (ℕ × Bool)
  | 0, _ => none
  | fuel + 1, s =>
    if (strchr (m s) delimiters 0).isSome then
      if m s = 0 then some (s, true) else skipDelimiters delimiters m fuel (s + 1)
    else some (s, false)

/-- The second loop. -/
def skipToken (delimiters : List UInt8) (m : Memory) : ℕ → ℕ → Option ℕ
  | 0, _ => none
  | fuel + 1, s => if (strchr (m s) delimiters 0).isNone then skipToken delimiters m fuel (s + 1) else some s

/-- `strtok_r`: what it returns, `*save_ptr` and the memory; nothing where an assertion fails. -/
def strtokR (fuel s : ℕ) (delimiters : List UInt8) (savePtr : ℕ) (m : Memory) : Option (ℕ × ℕ × Memory) := do
  let s := if s = 0 then savePtr else s
  if s = 0 then none
  else
    let (token, atEnd) ← skipDelimiters delimiters m fuel s
    if atEnd then some (0, token, m)
    else
      let s ← skipToken delimiters m fuel token
      if m s ≠ 0 then some (token, s + 1, update m s 0) else some (token, s, m)

/-- A call with the string and then calls with a null pointer: what they return, and the memory. -/
def strtokCalls (fuel : ℕ) (delimiters : List UInt8) : ℕ → ℕ → ℕ → Memory → Option (List ℕ × Memory)
  | 0, _, _, m => some ([], m)
  | calls + 1, s, savePtr, m => do
    let (token, savePtr, m) ← strtokR fuel s delimiters savePtr m
    let (tokens, m) ← strtokCalls fuel delimiters calls 0 savePtr m
    some (token :: tokens, m)

/-- A string at an address, with the null byte behind it. -/
def StrAt (m : Memory) : ℕ → List UInt8 → Prop
  | s, [] => m s = 0
  | s, c :: l => m s = c ∧ c ≠ 0 ∧ StrAt m (s + 1) l

/-- A pointer to a token, or a null pointer where there is none. -/
def Points (m : Memory) (p : ℕ) : Option (List UInt8) → Prop
  | none => p = 0
  | some w => p ≠ 0 ∧ StrAt m p w

variable {d l w r : List UInt8} {p savePtr : ℕ}

theorem StrAt.congr (h : StrAt m s l) (heq : ∀ x, s ≤ x → x ≤ s + l.length → m' x = m x) : StrAt m' s l := by
  induction l generalizing s with
  | nil => exact (heq s le_rfl (Nat.le_add_right ..)).trans h
  | cons c l ih =>
    obtain ⟨hc, h0, h⟩ := h
    rw [length_cons] at heq
    exact ⟨(heq s le_rfl (by omega)).trans hc, h0, ih h fun x hx hx' => heq x (by omega) (by omega)⟩

theorem isSome_strchr (c : UInt8) (l : List UInt8) (i : ℕ) : (strchr c l i).isSome = true ↔ c ∈ l ∨ c = 0 := by
  induction l generalizing i with
  | nil =>
    unfold strchr
    split_ifs with h <;> simp [h]
  | cons x l ih =>
    unfold strchr
    split_ifs with h
    · simp [h]
    · rw [ih, mem_cons, or_assoc, or_iff_right (Ne.symm h)]

theorem isNone_strchr (c : UInt8) (l : List UInt8) (i : ℕ) : (strchr c l i).isNone = true ↔ c ∉ l ∧ c ≠ 0 := by
  rw [← Option.not_isSome, Bool.not_eq_true', ← Bool.not_eq_true, isSome_strchr, not_or]

theorem StrAt.drop (h : StrAt m s (w ++ r)) : StrAt m (s + w.length) r := by
  induction w generalizing s with
  | nil => exact h
  | cons c w ih =>
    have hdrop := ih h.2.2
    rwa [Nat.add_assoc, Nat.add_comm 1] at hdrop

/-- A null byte over the character behind a prefix makes the prefix a string. -/
theorem StrAt.cut (h : StrAt m s (w ++ r)) : StrAt (update m (s + w.length) 0) s w := by
  induction w generalizing s with
  | nil => exact update_self ..
  | cons c w ih =>
    obtain ⟨hc, h0, h⟩ := h
    have hcut := ih h
    rw [Nat.add_assoc, Nat.add_comm 1] at hcut
    refine ⟨?_, h0, hcut⟩
    rwa [update_of_ne (by rw [length_cons]; omega)]

theorem skipDelimiters_eq (h : StrAt m s l) (hn : l.length < n) : ∃ t, StrAt m t (l.dropWhile (· ∈ d)) ∧
    t + (l.dropWhile (· ∈ d)).length = s + l.length ∧ s ≤ t ∧
    skipDelimiters d m n s = some (t, decide (l.dropWhile (· ∈ d) = [])) := by
  induction l generalizing s n with
  | nil =>
    obtain ⟨n, rfl⟩ := Nat.exists_eq_add_one.2 hn
    have hnull : m s = 0 := h
    refine ⟨s, h, rfl, le_rfl, ?_⟩
    rw [skipDelimiters, if_pos ((isSome_strchr ..).2 (.inr hnull)), if_pos hnull]
    rfl
  | cons c l ih =>
    obtain ⟨n, rfl⟩ := Nat.exists_eq_add_one.2 (Nat.zero_lt_of_lt hn)
    obtain ⟨hc, h0, hl⟩ := h
    simp only [skipDelimiters, hc, isSome_strchr, or_iff_left h0, if_neg h0, dropWhile_cons]
    by_cases hd : c ∈ d
    · obtain ⟨t, ht, hlen, hle, heq⟩ := ih hl (Nat.lt_of_succ_lt_succ hn)
      rw [if_pos (decide_eq_true hd), if_pos hd]
      exact ⟨t, ht, by rw [hlen, length_cons]; omega, by omega, heq⟩
    · rw [if_neg (by simpa using hd), if_neg hd]
      exact ⟨s, ⟨hc, h0, hl⟩, rfl, le_rfl, rfl⟩

theorem skipToken_eq (h : StrAt m s l) (hn : l.length < n) :
    skipToken d m n s = some (s + (l.takeWhile fun c => !decide (c ∈ d)).length) := by
  induction l generalizing s n with
  | nil =>
    obtain ⟨n, rfl⟩ := Nat.exists_eq_add_one.2 hn
    have hnull : m s = 0 := h
    simp only [skipToken, isNone_strchr, hnull]
    exact if_neg fun h => h.2 rfl
  | cons c l ih =>
    obtain ⟨n, rfl⟩ := Nat.exists_eq_add_one.2 (Nat.zero_lt_of_lt hn)
    obtain ⟨hc, h0, hl⟩ := h
    simp only [skipToken, hc, isNone_strchr, ih hl (Nat.lt_of_succ_lt_succ hn), takeWhile_cons]
    by_cases hd : c ∈ d
    · simp [hd]
    · simp [hd, h0, Nat.add_assoc, Nat.add_comm]

section

variable (h : StrAt m p l) (hp : (if s = 0 then savePtr else s) = p) (h0 : p ≠ 0) (hn : l.length < n)
include h hp h0 hn

/-- **A call.**  It returns the first word of the string and leaves a string with the other words, that the token is
    not part of; it writes null bytes over delimiters only. -/
theorem strtokR_eq :
    ∃ token save m1 rest, strtokR n s d savePtr m = some (token, save, m1) ∧ StrAt m1 save rest ∧
      words (· ∈ d) rest = (words (· ∈ d) l).tail ∧ p ≤ save ∧ save + rest.length ≤ p + l.length ∧
      (∀ x, m1 x ≠ m x → m1 x = 0 ∧ m x ∈ d ∧ p ≤ x ∧ x < p + l.length) ∧
      ∀ m', (∀ x, m' x ≠ m1 x → save ≤ x ∧ x < save + rest.length) → Points m' token (words (· ∈ d) l).head? := by
  obtain ⟨t, ht, hlen, hle, hskip⟩ := @skipDelimiters_eq m p n d l h hn
  simp only [strtokR, hp, if_neg h0, hskip, Option.bind_eq_bind, Option.bind_some, decide_eq_true_eq]
  rw [← words_dropWhile l]
  cases hl : l.dropWhile (· ∈ d) with
  | nil =>
    -- the null byte is reached: nothing is written, and the next call begins there again
    rw [hl] at ht hlen
    exact ⟨0, t, m, [], rfl, ht, rfl, hle, hlen.le, fun x hx => absurd rfl hx, fun m' _ => rfl⟩
  | cons c l' =>
    have hc : c ∉ d := by simpa using head_dropWhile hl
    rw [hl] at ht hlen
    have hne : (c :: l').takeWhile (fun c => !decide (c ∈ d)) ≠ [] := by simp [hc]
    have hsplit := takeWhile_append_dropWhile (p := fun c => !decide (c ∈ d)) (l := c :: l')
    have hlong : (c :: l').length < n := by omega
    rw [words_takeWhile hne, if_neg (cons_ne_nil c l'), skipToken_eq ht hlong, Option.bind_some, tail_cons, head?_cons]
    have hhead := fun x r => @head_dropWhile _ (fun c => !decide (c ∈ d)) (c :: l') x r
    generalize (c :: l').takeWhile _ = w at *
    generalize (c :: l').dropWhile _ = r at *
    rw [← hsplit] at ht hlen
    rw [length_append] at hlen
    have hr := ht.drop
    cases r with
    | nil =>
      have hnull : m (t + w.length) = 0 := hr
      refine ⟨t, t + w.length, m, [], if_neg (not_not_intro hnull), hr, rfl, by omega, hlen.le,
        fun x hx => absurd rfl hx, fun m' hm => ⟨by omega, ?_⟩⟩
      rw [append_nil] at ht
      exact ht.congr fun x _ _ => not_not.1 fun hx => by simpa using (hm x hx).1.trans_lt (hm x hx).2
    | cons x r =>
      obtain ⟨hx, hx0, hr⟩ := hr
      rw [length_cons] at hlen
      refine ⟨t, t + w.length + 1, update m (t + w.length) 0, r, if_pos (hx ▸ hx0), ?_, rfl, by omega, by omega,
        fun y hy => ?_, fun m' hm => ⟨by omega, ?_⟩⟩
      · exact hr.congr fun y hy _ => update_of_ne (by omega) ..
      · have hye : y = t + w.length := not_not.1 fun hye => hy (update_of_ne hye ..)
        rw [hye, update_self, hx]
        exact ⟨rfl, by simpa using hhead x r rfl, by omega, by omega⟩
      · exact ht.cut.congr fun y _ hy => not_not.1 fun hyne => by have := (hm y hyne).1; omega

theorem strtokCalls_eq (calls : ℕ) : ∃ tokens m', strtokCalls n d calls s savePtr m = some (tokens, m') ∧ tokens.length = calls ∧
      (∀ x, m' x ≠ m x → m' x = 0 ∧ m x ∈ d ∧ p ≤ x ∧ x < p + l.length) ∧
      ∀ (i : ℕ) token, tokens[i]? = some token → Points m' token (words (· ∈ d) l)[i]? := by
  induction calls generalizing s savePtr m p l with
  | zero => exact ⟨[], m, rfl, rfl, fun x hx => absurd rfl hx, nofun⟩
  | succ calls ih =>
    obtain ⟨token, save, m1, rest, hcall, hrest, hwords, hle, hlen, hchanged, hpoints⟩ := strtokR_eq (d := d) h hp h0 hn
    have hsave : save ≠ 0 := by omega
    obtain ⟨tokens, m', hcalls, hcount, hafter, htokens⟩ :=
      @ih m1 0 rest save save hrest rfl hsave (by omega)
    refine ⟨token :: tokens, m', ?_, by rw [length_cons, hcount], fun x hx => ?_, fun i tok hi => ?_⟩
    · simp only [strtokCalls, hcall, hcalls, Option.bind_eq_bind, Option.bind_some]
    · by_cases hx1 : m' x = m1 x
      · rw [hx1] at hx ⊢
        exact hchanged x hx
      · obtain ⟨hnull, hd, hlo, hhi⟩ := hafter x hx1
        by_cases hx2 : m1 x = m x
        · exact ⟨hnull, hx2 ▸ hd, by omega, by omega⟩
        · exact ⟨hnull, (hchanged x hx2).2⟩
    · cases i with
      | zero =>
        rw [getElem?_cons_zero, Option.some.injEq] at hi
        rw [← hi, ← head?_eq_getElem?]
        exact hpoints m' fun x hx => (hafter x hx).2.2
      | succ i =>
        rw [← getElem?_tail, ← hwords]
        exact htokens i tok hi

end

/-- **Splitting a string.**  The calls return the words of the string in order and then null pointers, and write
    nothing but null bytes over delimiters inside it. -/
theorem strtok_words (d : List UInt8) (savePtr calls : ℕ) (h0 : s ≠ 0) (h : StrAt m s l) (hn : l.length < n) :
    (∀ w ∈ words (· ∈ d) l, w ≠ []) ∧
    ∃ tokens m', strtokCalls n d calls s savePtr m = some (tokens, m') ∧ tokens.length = calls ∧
      (∀ x, m' x ≠ m x → m' x = 0 ∧ m x ∈ d ∧ s ≤ x ∧ x < s + l.length) ∧
      ∀ (i : ℕ) token, tokens[i]? = some token → Points m' token (words (· ∈ d) l)[i]? := by
  refine ⟨fun w hw => ?_, strtokCalls_eq h (if_neg h0) h0 hn calls⟩
  simpa using (mem_filter.1 hw).2

/-- The string `"/a//b"` at 8, of which the calls make `"a"` at 9 and `"b"` at 12. -/
theorem strtok_words_path : words (· ∈ [47]) [47, 97, 47, 47, 98] = [[97], [98]] ∧
    ∃ tokens m', strtokCalls 6 [47] 4 8 0 (fun x => if x = 9 then 97 else if x = 12 then 98 else if x < 13 then 47 else 0)
      = some (tokens, m') ∧ tokens.length = 4 ∧ ∀ (i : ℕ) token, tokens[i]? = some token →
        Points m' token (words (· ∈ [47]) [47, 97, 47, 47, 98])[i]? :=
  have h := strtok_words [47] 0 4
    (by decide) (by simp [StrAt]) (by decide)
  ⟨by decide, h.2.imp fun _ h => h.imp fun _ h => ⟨h.1, h.2.1, h.2.2.2⟩⟩

end Pintos.Strings
