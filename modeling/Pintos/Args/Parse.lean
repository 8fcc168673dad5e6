/-
  Splitting command lines (`parse` of userprog/process.c).

  The tokens of a command line are copied to the rows of a matrix that all processes share.
-/
import Pintos.Fs.Directory
import Pintos.Lib.Words

namespace Pintos.Args

open Lib Function List

/-- `COMMAND_WIDTH`. -/
def commandWidth : ℕ := 30

/-- `COMMAND_LENGTH`. -/
def commandLength : ℕ := 128

/-- `command`, by rows. -/
abbrev Matrix := ℕ → ℕ → UInt8

variable {m : Matrix} {line : Name} {s t : List UInt8} {i j k n : ℕ}

namespace Matrix

/-- `command[i][j] = c`. -/
def set (m : Matrix) (i j : ℕ) (c : UInt8) : Matrix := update m i (update (m i) j c)

/-- `strlcpy (command[i], token, strlen (token) + 1)`. -/
def copy (m : Matrix) (i : ℕ) (token : List UInt8) : Matrix := update m i (store (m i) 0 (token ++ [0]))

/-- The string in a row; all strings end inside their row. -/
def str (m : Matrix) (i : ℕ) : List UInt8 := cstr (slice (m i) 0 commandLength)

end Matrix

/-- The inner loop that clears, and the `j` it ends with. -/
def clearInner (i : ℕ) : ℕ → ℕ → Matrix → ℕ × Matrix
  | 0, j, m => (j, m)
  | fuel + 1, j, m => if j < commandLength then clearInner i fuel (j + 1) (m.set i j 0) else (j, m)

/-- The outer loop; `j` is not reset. -/
def clearLoop : ℕ → ℕ → ℕ → Matrix → Matrix
  | 0, _, _, m => m
  | fuel + 1, i, j, m =>
    if i < commandWidth then
      let r := clearInner i commandLength j m
      clearLoop fuel (i + 1) r.1 r.2
    else m

def clear (m : Matrix) : Matrix := clearLoop commandWidth 0 0 m

/-- `strtok_r` with the space as delimiter: a token and what is left behind it. -/
def strtokR (s : List UInt8) : Option (List UInt8 × List UInt8) :=
  match s.dropWhile (· == 32) with
  | [] => none
  | c :: rest => some ((c :: rest).takeWhile (· != 32), ((c :: rest).dropWhile (· != 32)).drop 1)

/-- The loop over the tokens; the last component of the result is `err`. -/
def parseLoop : ℕ → ℕ → Option (List UInt8 × List UInt8) → Bool → Matrix → Matrix × Bool
  | 0, _, _, err, m => (m, err)
  | _ + 1, _, none, err, m => (m, err)
  | fuel + 1, i, some (token, rest), err, m =>
    if i < commandWidth then
      if token.length < commandLength - 1 then parseLoop fuel (i + 1) (strtokR rest) err (m.copy i token)
      else parseLoop fuel i (strtokR rest) true m
    else (m, err)

/-- `parse`; whether a token was too long is what it returns, and its caller does not look at. -/
def parse (m : Matrix) (line : Name) : Matrix × Bool :=
  parseLoop (line.val.length + 1) 0 (strtokR line.val) false (clear m)

/-! ## Tokens -/

/-- The parts between spaces that are not empty. -/
def tokens (s : List UInt8) : List (List UInt8) := (s.splitOnP (· == 32)).filter (· ≠ [])

/-- The tokens that `parse` puts in rows. -/
def fitting (s : List UInt8) : List (List UInt8) := (tokens s).filter (·.length < 127)

/-- The number of rows that a command line is put in. -/
def rowsUsed (line : Name) : ℕ := min 30 (fitting line.val).length

theorem tokens_takeWhile (h : s.takeWhile (· != 32) ≠ []) :
    tokens s = s.takeWhile (· != 32) :: tokens ((s.dropWhile (· != 32)).drop 1) := words_takeWhile h

theorem takeWhile_ne_nil {c : UInt8} {r : List UInt8} (h : s.dropWhile (· == 32) = c :: r) : (c :: r).takeWhile (· != 32) ≠ [] := by
  rw [takeWhile_cons, if_pos (by rw [bne, head_dropWhile h]; rfl)]
  exact cons_ne_nil _ _

theorem tokens_eq (s : List UInt8) : tokens s =
    match strtokR s with
    | none => []
    | some (token, rest) => token :: tokens rest := by
  change words (· == 32) s = _
  rw [← words_dropWhile]
  unfold strtokR
  cases hs : s.dropWhile (· == 32) with
  | nil => rfl
  | cons c r => exact tokens_takeWhile (takeWhile_ne_nil hs)

theorem strtokR_spec {token rest : List UInt8} (h : strtokR s = some (token, rest)) :
    token ≠ [] ∧ token ⊆ s ∧ rest ⊆ s ∧ rest.length < s.length := by
  unfold strtokR at h
  cases hs : s.dropWhile (· == 32) with
  | nil => rw [hs] at h; cases h
  | cons c r =>
    rw [hs] at h
    obtain ⟨rfl, rfl⟩ := Prod.mk.inj (Option.some.inj h)
    have hsub : (c :: r).Sublist s := hs ▸ dropWhile_sublist _
    have hdrop := dropWhile_sublist (l := c :: r) (· != 32)
    refine ⟨?_, ((takeWhile_sublist _).trans hsub).subset, ((drop_sublist 1 _).trans (hdrop.trans hsub)).subset, ?_⟩
    · exact takeWhile_ne_nil hs
    · have h1 := hsub.length_le
      have h2 := hdrop.length_le
      have h3 : 0 < (c :: r).length := Nat.succ_pos _
      rw [length_drop]
      omega

theorem mem_tokens (ht : t ∈ tokens s) : t ≠ [] ∧ t ⊆ s := by
  induction hn : s.length using Nat.strong_induction_on generalizing s with
  | _ n ih =>
    rw [tokens_eq] at ht
    cases htok : strtokR s with
    | none => rw [htok] at ht; cases ht
    | some r =>
      obtain ⟨token, rest⟩ := r
      obtain ⟨hne, htoken, hrest, hlen⟩ := strtokR_spec htok
      rw [htok] at ht
      rcases mem_cons.1 ht with rfl | ht
      · exact ⟨hne, htoken⟩
      · obtain ⟨hne', hsub⟩ := ih rest.length (hn ▸ hlen) ht rfl
        exact ⟨hne', fun c hc => hrest (hsub hc)⟩

/-! ## Rows -/

theorem clearInner_eq (i : ℕ) : ∀ fuel j (m : Matrix), commandLength ≤ fuel + j → j ≤ commandLength →
    clearInner i fuel j m = (commandLength, fun r c => if r = i ∧ j ≤ c ∧ c < commandLength then 0 else m r c)
  | 0, j, m, h, hj => by
    obtain rfl : j = commandLength := by omega
    unfold clearInner
    congr 1
    funext r c
    rw [if_neg (by omega)]
  | fuel + 1, j, m, h, hj => by
    unfold clearInner
    split_ifs with hlt
    · rw [clearInner_eq i fuel (j + 1) (m.set i j 0) (by omega) (by omega)]
      congr 1
      funext r c
      unfold Matrix.set
      by_cases hr : r = i
      · subst hr
        rw [update_self]
        by_cases hc : c = j
        · subst hc
          rw [update_self, if_neg (by omega), if_pos ⟨rfl, le_rfl, hlt⟩]
        · rw [update_of_ne hc]
          exact if_congr (by omega) rfl rfl
      · rw [update_of_ne hr, if_neg fun h => hr h.1, if_neg fun h => hr h.1]
    · obtain rfl : j = commandLength := by omega
      congr 1
      funext r c
      rw [if_neg (by omega)]

theorem clearLoop_end : ∀ fuel i (m : Matrix), clearLoop fuel i commandLength m = m
  | 0, _, _ => rfl
  | fuel + 1, i, m => by
    unfold clearLoop
    split_ifs with hi
    · exact clearLoop_end fuel (i + 1) m
    · rfl

theorem clear_apply (m : Matrix) (i j : ℕ) : clear m i j = if i = 0 ∧ j < commandLength then 0 else m i j := by
  unfold clear
  rw [show commandWidth = 29 + 1 from rfl, clearLoop, if_pos (by decide)]
  rw [clearInner_eq 0 commandLength 0 m (by omega) (Nat.zero_le _), clearLoop_end]
  simp only [Nat.zero_le, true_and]

theorem cstr_append_zero {l : List UInt8} (h : (0 : UInt8) ∉ t) : cstr (t ++ 0 :: l) = t := by
  unfold cstr
  induction t with
  | nil => rfl
  | cons c t ih =>
    rw [mem_cons, not_or] at h
    rw [cons_append, takeWhile_cons, if_pos (bne_iff_ne.2 (Ne.symm h.1)), ih h.2]

theorem str_eq_nil (m : Matrix) (i : ℕ) : m.str i = [] ↔ m i 0 = 0 := by
  unfold Matrix.str cstr
  have hslice : slice (m i) 0 commandLength = m i 0 :: slice (m i) 1 127 := by
    rw [show commandLength = 1 + 127 from rfl, slice_add]
    rfl
  rw [hslice, takeWhile_cons]
  split_ifs with h
  · exact ⟨nofun, fun h0 => absurd h0 (bne_iff_ne.1 h)⟩
  · exact ⟨fun _ => by simpa using h, fun _ => rfl⟩

theorem zero_notMem_str (m : Matrix) (i : ℕ) : (0 : UInt8) ∉ m.str i := by
  intro h
  exact absurd rfl (bne_iff_ne.1 (mem_takeWhile_imp (p := (· != (0 : UInt8))) h))

theorem str_clear (m : Matrix) (i : ℕ) : (clear m).str i = if i = 0 then [] else m.str i := by
  split_ifs with hi
  · rw [str_eq_nil, clear_apply, if_pos ⟨hi, by decide⟩]
  · have hslice : slice (clear m i) 0 commandLength = slice (m i) 0 commandLength :=
      slice_congr fun j _ => by rw [clear_apply, if_neg fun h => hi h.1]
    rw [Matrix.str, hslice, Matrix.str]

theorem str_copy (ht : (0 : UInt8) ∉ t) (hlen : t.length < 127) (m : Matrix) (i k : ℕ) :
    (m.copy i t).str k = if k = i then t else m.str k := by
  unfold Matrix.str Matrix.copy
  split_ifs with hk
  · subst hk
    have hl : (t ++ [0]).length ≤ commandLength := by
      rw [length_append, length_singleton]
      exact Nat.le_of_lt_succ (by unfold commandLength; omega)
    rw [update_self, show commandLength = (t ++ [0]).length + (commandLength - (t ++ [0]).length) by omega,
      slice_add, slice_store_self, append_assoc, singleton_append, cstr_append_zero ht]
  · rw [update_of_ne hk]

theorem str_parseLoop : ∀ fuel i s err (m : Matrix), s.length < fuel → (0 : UInt8) ∉ s → ∀ k,
    (parseLoop fuel i (strtokR s) err m).1.str k =
      if i ≤ k ∧ k < commandWidth then ((fitting s)[k - i]?).getD (m.str k) else m.str k
  | 0, _, _, _, _, h, _, _ => absurd h (Nat.not_lt_zero _)
  | fuel + 1, i, s, err, m, hlen, hzero, k => by
    unfold fitting
    rw [tokens_eq]
    cases htok : strtokR s with
    | none =>
      dsimp only [parseLoop]
      rw [filter_nil, getElem?_nil, Option.getD_none, ite_self]
    | some r =>
      obtain ⟨token, rest⟩ := r
      obtain ⟨-, htoken, hrest, hlt⟩ := strtokR_spec htok
      have ih := fun i err m => str_parseLoop fuel i rest err m (by omega) (fun h => hzero (hrest h)) k
      dsimp only [parseLoop]
      by_cases hi : i < commandWidth
      swap
      · rw [if_neg hi, if_neg (by omega)]
      rw [if_pos hi]
      by_cases hfit : token.length < 127
      swap
      · rw [if_neg (show ¬ token.length < commandLength - 1 from hfit), ih, filter_cons_of_neg (by simpa using Nat.not_lt.1 hfit)]
        rfl
      rw [if_pos (show token.length < commandLength - 1 from hfit), ih, str_copy (fun h => hzero (htoken h)) hfit, filter_cons_of_pos (by simpa using hfit)]
      by_cases hk : k = i
      · subst hk
        rw [if_neg (by omega), if_pos rfl, if_pos ⟨le_rfl, hi⟩, Nat.sub_self, getElem?_cons_zero, Option.getD_some]
      · rw [if_neg hk]
        by_cases hle : i ≤ k ∧ k < commandWidth
        · rw [if_pos ⟨by omega, hle.2⟩, if_pos hle, show k - i = k - (i + 1) + 1 by omega, getElem?_cons_succ]
          rfl
        · rw [if_neg (by omega), if_neg hle]

theorem str_parse (m : Matrix) (line : Name) (k : ℕ) : (parse m line).1.str k =
    if k < rowsUsed line then ((fitting line.val)[k]?).getD [] else if k = 0 then [] else m.str k := by
  unfold parse rowsUsed
  rw [str_parseLoop _ _ _ _ _ (Nat.lt_succ_self _) line.property, str_clear, Nat.sub_zero]
  by_cases hk : k < (fitting line.val).length
  · rw [getElem?_eq_getElem hk, Option.getD_some, Option.getD_some]
    exact if_congr (by unfold commandWidth; omega) rfl rfl
  · rw [getElem?_eq_none (by omega), Option.getD_none, Option.getD_none, ite_self]
    exact (if_neg (by omega)).symm

theorem mem_fitting (ht : t ∈ fitting line.val) : t ≠ [] ∧ (0 : UInt8) ∉ t ∧ t.length < 127 := by
  obtain ⟨ht, hlen⟩ := mem_filter.1 ht
  obtain ⟨hne, hsub⟩ := mem_tokens ht
  exact ⟨hne, fun h => line.property (hsub h), by simpa using hlen⟩

end Pintos.Args
