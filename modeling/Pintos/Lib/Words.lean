/-
  The words of a sequence: its maximal runs of elements that are no separators.
-/
import Mathlib.Data.List.TakeWhile

namespace Lib

open List

variable {α : Type*} {p : α → Bool} {l w rest : List α}

def words (p : α → Bool) (l : List α) : List (List α) := (l.splitOnP p).filter (· ≠ [])

theorem head_dropWhile {c : α} {r : List α} (h : l.dropWhile p = c :: r) : p c = false := by
  have := List.head?_dropWhile_not p l
  rwa [h] at this

theorem words_dropWhile (l : List α) : words p (l.dropWhile p) = words p l := by
  induction l with
  | nil => rfl
  | cons c l ih =>
    rw [dropWhile_cons]
    split_ifs with hc
    · rw [ih, words, words, splitOnP_cons_eq_if_modifyHead, if_pos hc, filter_cons_of_neg (by simp)]
    · rfl

theorem words_append (hw : w ≠ []) (hp : ∀ c ∈ w, p c = false) (hrest : ∀ c r, rest = c :: r → p c = true) :
    words p (w ++ rest) = w :: words p (rest.drop 1) := by
  unfold words
  cases rest with
  | nil =>
    rw [append_nil, splitOnP_eq_singleton hp, filter_cons_of_pos (by simpa using hw)]
    rfl
  | cons c r =>
    rw [splitOnP_append_cons_of_forall_mem hp c (hrest c r rfl), filter_cons_of_pos (by simpa using hw)]
    rfl

theorem words_takeWhile (h : l.takeWhile (fun c => !p c) ≠ []) :
    words p l = l.takeWhile (fun c => !p c) :: words p ((l.dropWhile fun c => !p c).drop 1) := by
  have hrest : ∀ c r, (l.dropWhile fun c => !p c) = c :: r → p c = true := fun c r hc => by
    simpa using head_dropWhile hc
  have hword := words_append h (fun c hc => by simpa using mem_takeWhile_imp hc) hrest
  rwa [takeWhile_append_dropWhile] at hword

end Lib
