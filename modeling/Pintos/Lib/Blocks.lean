/-
  Blocks of equivalent elements.

  A sequence falls into its maximal blocks of adjacent equivalent elements.
-/
import Pintos.Lib.MergeRuns

namespace Lib.MergeRuns

open List

variable {α : Type*} {less : α → α → Bool} {a b c e x : α} {l ts xs ys : List α} {rs : List (List α)}

/-- The first elements of the blocks. -/
def heads (rs : List (List α)) : List α := rs.filterMap List.head?

/-- The other elements of the blocks. -/
def tails (rs : List (List α)) : List α := (rs.map List.tail).flatten

def keep (less : α → α → Bool) : α → List α → List α
  | _, [] => []
  | e, x :: xs => if equiv less e x then keep less e xs else x :: keep less x xs

def dups (less : α → α → Bool) : α → List α → List α
  | _, [] => []
  | e, x :: xs => if equiv less e x then x :: dups less e xs else dups less x xs

theorem StrictWeak.equiv_trans (h : StrictWeak less) (hab : equiv less a b = true) (hbc : equiv less b c = true) :
    equiv less a c = true := by
  rw [equiv_iff] at hab hbc ⊢
  have := h.incomp_trans a b c ⟨by simp [hab], by simp [hab]⟩ ⟨by simp [hbc], by simp [hbc]⟩
  simpa using this

theorem equiv_comm (less : α → α → Bool) (a b : α) : equiv less a b = equiv less b a := Bool.and_comm ..

theorem StrictWeak.equiv_of_isChain (h : StrictWeak less) (hts : (e :: ts).IsChain fun a b => equiv less a b = true) :
    ∀ t ∈ ts, equiv less e t = true := by
  have : Trans (fun a b => equiv less a b = true) (fun a b => equiv less a b = true) fun a b => equiv less a b = true := ⟨h.equiv_trans⟩
  exact (pairwise_cons.1 (isChain_iff_pairwise.1 hts)).1

theorem keep_append (hts : ∀ t ∈ ts, equiv less e t = true) (xs : List α) : keep less e (ts ++ xs) = keep less e xs := by
  induction ts with
  | nil => rfl
  | cons t ts ih =>
    rw [cons_append, keep, if_pos (hts t mem_cons_self)]
    exact ih fun t ht => hts t (mem_cons_of_mem _ ht)

theorem dups_append (hts : ∀ t ∈ ts, equiv less e t = true) (xs : List α) : dups less e (ts ++ xs) = ts ++ dups less e xs := by
  induction ts with
  | nil => rfl
  | cons t ts ih =>
    rw [cons_append, dups, if_pos (hts t mem_cons_self), ih fun t ht => hts t (mem_cons_of_mem _ ht), cons_append]

theorem StrictWeak.keep_flatten (h : StrictWeak less) (hrs : Maximal (equiv less) ((e :: ts) :: rs)) :
    keep less e (ts ++ rs.flatten) = heads rs ∧ dups less e (ts ++ rs.flatten) = ts ++ tails rs := by
  have hts := h.equiv_of_isChain (hrs.isChain _ mem_cons_self)
  rw [keep_append hts, dups_append hts]
  induction rs generalizing e ts with
  | nil => exact ⟨rfl, rfl⟩
  | cons r rs ih =>
    cases r with
    | nil => exact absurd rfl (hrs.ne_nil [] (by simp))
    | cons y r =>
      have hts' := h.equiv_of_isChain (hrs.tail.isChain _ mem_cons_self)
      -- the block of `e` ends before `y`
      have hey : ¬equiv less e y = true := by
        intro hey
        rcases hrs.break_head with hnil | ⟨x, hx, z, hz, hbreak⟩
        · cases hnil
        · obtain rfl : y = z := Option.some.inj hz
          have hex : equiv less x e = true := by
            rcases mem_cons.1 (mem_of_getLast? hx) with rfl | hmem
            · exact equiv_iff.2 ⟨h.irrefl _, h.irrefl _⟩
            · rw [equiv_comm]
              exact hts x hmem
          rw [h.equiv_trans hex hey] at hbreak
          cases hbreak
      obtain ⟨hkeep, hdups⟩ := ih hrs.tail hts'
      rw [flatten_cons, cons_append, keep, dups, if_neg hey, if_neg hey, keep_append hts', dups_append hts', hkeep]
      refine ⟨rfl, ?_⟩
      rw [show tails ((y :: r) :: rs) = r ++ tails rs from rfl]
      rw [append_cancel_left hdups]

theorem StrictWeak.heads_splitBy (h : StrictWeak less) (e : α) (xs : List α) :
    heads ((e :: xs).splitBy (equiv less)) = e :: keep less e xs ∧ tails ((e :: xs).splitBy (equiv less)) = dups less e xs := by
  have hmax := maximal_splitBy (equiv less) (e :: xs)
  have hflat := flatten_splitBy (equiv less) (e :: xs)
  match hrs : (e :: xs).splitBy (equiv less) with
  | [] =>
    rw [hrs] at hflat
    cases hflat
  | [] :: rs => exact absurd rfl (hmax.ne_nil [] (by simp [hrs]))
  | (y :: ts) :: rs =>
    rw [hrs] at hmax hflat
    obtain ⟨rfl, rfl⟩ : y = e ∧ ts ++ rs.flatten = xs := by simpa using hflat
    obtain ⟨hkeep, hdups⟩ := h.keep_flatten hmax
    rw [hkeep, hdups]
    exact ⟨rfl, rfl⟩

theorem keep_dups_perm (less : α → α → Bool) (e : α) (xs : List α) : (keep less e xs ++ dups less e xs).Perm xs := by
  induction xs generalizing e with
  | nil => rfl
  | cons x xs ih =>
    rw [keep, dups]
    split_ifs with hex
    · exact perm_middle.trans ((ih e).cons x)
    · exact (ih x).cons x

theorem StrictWeak.keep_increasing (h : StrictWeak less) (hsorted : Sorted less (e :: xs)) :
    (e :: keep less e xs).Pairwise fun a b => less a b = true := by
  induction xs generalizing e with
  | nil => simp [keep]
  | cons x xs ih =>
    obtain ⟨hex, hxs⟩ := pairwise_cons.1 hsorted
    rw [keep]
    split_ifs with heq
    · exact ih (pairwise_cons.2 ⟨fun y hy => hex y (mem_cons_of_mem _ hy), (pairwise_cons.1 hxs).2⟩)
    · have hlt : less e x = true := by
        have hle := le_iff.1 (hex x mem_cons_self)
        simpa [hle] using heq
      have hrest := ih hxs
      refine pairwise_cons.2 ⟨fun y hy => ?_, hrest⟩
      rcases mem_cons.1 hy with rfl | hy
      · exact hlt
      · exact h.trans hlt ((pairwise_cons.1 hrest).1 y hy)

/-! ## Insertion into a sorted sequence -/

theorem StrictWeak.sorted_insert (h : StrictWeak less) (hsorted : Sorted less (xs ++ ys)) (hxs : ∀ x ∈ xs, less e x = false)
    (hys : ∀ y ∈ ys.head?, less e y = true) : Sorted less (xs ++ e :: ys) ∧ ∀ y ∈ ys, less e y = true := by
  obtain ⟨hx, hy, hxy⟩ := pairwise_append.1 hsorted
  have hgt : ∀ y ∈ ys, less e y = true := by
    cases ys with
    | nil => simp
    | cons z ys =>
      have hez := hys z rfl
      intro y hy'
      rcases mem_cons.1 hy' with rfl | hy'
      · exact hez
      · exact h.lt_of_lt_of_le hez ((pairwise_cons.1 hy).1 y hy')
  refine ⟨pairwise_append.2 ⟨hx, pairwise_cons.2 ⟨fun y hy => ?_, hy⟩, fun x hx y hy => ?_⟩, hgt⟩
  · exact le_iff.2 (h.asymm (hgt y hy))
  · rcases mem_cons.1 hy with rfl | hy
    · exact le_iff.2 (hxs x hx)
    · exact hxy x hx y hy

end Lib.MergeRuns
