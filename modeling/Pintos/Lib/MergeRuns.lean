/-
  Sorting by merging runs.

  A sequence falls into its maximal runs of elements in order.  A pass merges the runs in pairs, the
  first with the second, the third with the fourth and so on; equivalent elements stay as they are.
  After a pass there are at most half as many runs.
-/
import Mathlib.Data.List.Sort
import Mathlib.Data.List.SplitBy
import Mathlib.Order.Defs.Unbundled

namespace Lib.MergeRuns

open List

variable {α : Type*} {less : α → α → Bool} {a b c e : α} {l l' l'' as bs : List α} {rs : List (List α)}

/-! ## The order -/

/-- The test is a strict weak order. -/
def StrictWeak (less : α → α → Bool) : Prop := IsStrictWeakOrder α fun a b => less a b = true

/-- `a` may stand before `b`. -/
def le (less : α → α → Bool) (a b : α) : Bool := !less b a

/-- Neither is less than the other. -/
def equiv (less : α → α → Bool) (a b : α) : Bool := !less a b && !less b a

@[simp] theorem le_iff : le less a b = true ↔ less b a = false := by simp [le]

@[simp] theorem le_eq_false_iff : le less a b = false ↔ less b a = true := by simp [le]

@[simp] theorem equiv_iff : equiv less a b = true ↔ less a b = false ∧ less b a = false := by simp [equiv]

section

variable (h : StrictWeak less)
include h

theorem StrictWeak.irrefl (a : α) : less a a = false := by
  have := h.toIrrefl.irrefl a
  simpa using this

theorem StrictWeak.trans (hab : less a b = true) (hbc : less b c = true) : less a c = true :=
  h.toIsTrans.trans a b c hab hbc

theorem StrictWeak.asymm (hab : less a b = true) : less b a = false := by
  by_contra hba
  have := h.trans hab (Bool.eq_true_of_not_eq_false hba)
  rw [h.irrefl] at this
  cases this

theorem StrictWeak.le_trans (hab : le less a b = true) (hbc : le less b c = true) : le less a c = true := by
  rw [le_iff] at hab hbc ⊢
  by_contra hca
  have hca := Bool.eq_true_of_not_eq_false hca
  -- neither of the three can be less than another one
  have hab' : less a b = false := by
    by_contra hlt
    rw [h.trans hca (Bool.eq_true_of_not_eq_false hlt)] at hbc
    cases hbc
  have hbc' : less b c = false := by
    by_contra hlt
    rw [h.trans (Bool.eq_true_of_not_eq_false hlt) hca] at hab
    cases hab
  exact (h.incomp_trans a b c ⟨by simp [hab'], by simp [hab]⟩ ⟨by simp [hbc'], by simp [hbc]⟩).2 hca

theorem StrictWeak.le_total (a b : α) : (le less a b || le less b a) = true := by
  cases hba : less b a with
  | false => simp [le, hba]
  | true => simp [le, h.asymm hba]

theorem StrictWeak.lt_of_lt_of_le (hab : less a b = true) (hbc : le less b c = true) : less a c = true := by
  by_contra hac
  have hca : le less c a = true := le_iff.2 (Bool.eq_false_of_not_eq_true hac)
  have := le_iff.1 (h.le_trans hbc hca)
  rw [hab] at this
  cases this

end

theorem strictWeak_key (key : α → ℕ) : StrictWeak fun a b => decide (key a < key b) where
  irrefl a := by simp
  incomp_trans a b c hab hbc := by
    simp only [decide_eq_true_eq] at hab hbc ⊢
    omega

/-- In order. -/
def Sorted (less : α → α → Bool) (l : List α) : Prop := l.Pairwise fun a b => le less a b = true

theorem sorted_nil : Sorted less [] := List.Pairwise.nil

theorem StrictWeak.sorted_iff (h : StrictWeak less) : Sorted less l ↔ l.IsChain fun a b => le less a b = true := by
  have : Trans (fun a b => le less a b = true) (fun a b => le less a b = true) fun a b => le less a b = true := ⟨h.le_trans⟩
  exact isChain_iff_pairwise.symm

/-- Equivalent elements are in the same order. -/
def Stable (less : α → α → Bool) (l l' : List α) : Prop := ∀ e, l'.filter (equiv less e) = l.filter (equiv less e)

theorem Stable.trans (h : Stable less l l') (h' : Stable less l' l'') : Stable less l l'' := fun e => (h' e).trans (h e)

theorem Stable.pair (hless : StrictWeak less) (h : Stable less l l') (hab : equiv less a b = true) (hl : [a, b].Sublist l) :
    [a, b].Sublist l' := by
  have haa : equiv less a a = true := equiv_iff.2 ⟨hless.irrefl a, hless.irrefl a⟩
  have hfilter := hl.filter (equiv less a)
  rw [filter_cons_of_pos haa, filter_cons_of_pos hab, filter_nil, ← h a] at hfilter
  exact hfilter.trans filter_sublist

/-! ## Merging -/

theorem StrictWeak.sorted_merge (h : StrictWeak less) (ha : Sorted less as) (hb : Sorted less bs) :
    Sorted less (as.merge bs (le less)) := by
  have htrans : ∀ a b c, le less a b = true → le less b c = true → le less a c = true := fun _ _ _ => h.le_trans
  exact pairwise_merge htrans h.le_total as bs ha hb

theorem StrictWeak.stable_merge (h : StrictWeak less) (ha : Sorted less as) : Stable less (as ++ bs) (as.merge bs (le less)) := by
  intro e
  induction as generalizing bs with
  | nil => simp
  | cons a as iha =>
    induction bs with
    | nil => simp
    | cons b bs ihb =>
      rw [cons_merge_cons]
      split_ifs with hab
      · rw [cons_append, filter_cons, filter_cons, iha (pairwise_cons.1 ha).2]
      · rw [filter_cons, ihb]
        -- if `b` is equivalent to `e`, every element of `a :: as` is greater
        by_cases hbe : equiv less e b = true
        · have hba : less b a = true := by simpa using hab
          have hnone : (a :: as).filter (equiv less e) = [] := by
            rw [filter_eq_nil_iff]
            intro x hx hex
            have hax : le less a x = true := by
              rcases mem_cons.1 hx with rfl | hx
              · exact le_iff.2 (h.irrefl _)
              · exact (pairwise_cons.1 ha).1 x hx
            have hbx := h.lt_of_lt_of_le hba hax
            have hxb := h.le_trans (le_iff.2 (equiv_iff.1 hex).1) (le_iff.2 (equiv_iff.1 hbe).2)
            rw [le_iff, hbx] at hxb
            cases hxb
          rw [filter_append, filter_append, hnone, nil_append, nil_append, filter_cons]
        · rw [if_neg hbe, filter_append, filter_append, filter_cons_of_neg hbe]

/-- Runs are merged in pairs. -/
def mergePairs (less : α → α → Bool) : List (List α) → List (List α)
  | [] => []
  | [r] => [r]
  | r :: r' :: rs => r.merge r' (le less) :: mergePairs less rs

theorem length_mergePairs (less : α → α → Bool) (rs : List (List α)) : (mergePairs less rs).length = (rs.length + 1) / 2 := by
  induction rs using mergePairs.induct with
  | case1 => simp [mergePairs]
  | case2 r => simp [mergePairs]
  | case3 r r' rs ih =>
    simp only [mergePairs, length_cons, ih]
    omega

theorem mergePairs_perm (less : α → α → Bool) (rs : List (List α)) : (mergePairs less rs).flatten.Perm rs.flatten := by
  induction rs using mergePairs.induct with
  | case1 => rfl
  | case2 r => rfl
  | case3 r r' rs ih =>
    simp only [mergePairs, flatten_cons, ← append_assoc]
    exact (merge_perm_append _).append ih

theorem StrictWeak.sorted_mergePairs (h : StrictWeak less) (hrs : ∀ r ∈ rs, Sorted less r) : ∀ r ∈ mergePairs less rs, Sorted less r := by
  induction rs using mergePairs.induct with
  | case1 => exact hrs
  | case2 r => exact hrs
  | case3 r r' rs ih =>
    intro s hs
    rcases mem_cons.1 hs with rfl | hs
    · exact h.sorted_merge (hrs r (by simp)) (hrs r' (by simp))
    · exact ih (fun s hs => hrs s (by simp [hs])) s hs

theorem StrictWeak.stable_mergePairs (h : StrictWeak less) (hrs : ∀ r ∈ rs, Sorted less r) :
    Stable less rs.flatten (mergePairs less rs).flatten := by
  intro e
  induction rs using mergePairs.induct with
  | case1 => rfl
  | case2 r => rfl
  | case3 r r' rs ih =>
    simp only [mergePairs, flatten_cons, ← append_assoc]
    rw [filter_append, ih fun s hs => hrs s (by simp [hs]), h.stable_merge (hrs r (by simp)), ← filter_append]

/-! ## Runs -/

section
variable {R : α → α → Bool}

/-- Runs of elements that are related by `R`, each as long as it can be. -/
structure Maximal (R : α → α → Bool) (rs : List (List α)) : Prop where
  ne_nil : ∀ r ∈ rs, r ≠ []
  isChain : ∀ r ∈ rs, r.IsChain fun a b => R a b = true
  breaks : rs.IsChain fun r r' => ∃ x ∈ r.getLast?, ∃ y ∈ r'.head?, R x y = false

theorem maximal_splitBy (R : α → α → Bool) (l : List α) : Maximal R (l.splitBy R) := by
  refine ⟨fun r => ne_nil_of_mem_splitBy, fun r => isChain_of_mem_splitBy, ?_⟩
  refine (isChain_getLast_head_splitBy R l).imp fun r r' h => ?_
  obtain ⟨hr, hr', h⟩ := h
  exact ⟨_, getLast?_eq_some_getLast hr, _, head?_eq_some_head hr', h⟩

variable {r : List α}

theorem Maximal.tail (h : Maximal R (r :: rs)) : Maximal R rs :=
  ⟨fun s hs => h.ne_nil s (mem_cons_of_mem _ hs), fun s hs => h.isChain s (mem_cons_of_mem _ hs), h.breaks.tail⟩

theorem Maximal.of_append (h : Maximal R ((r ++ a :: l) :: rs)) : Maximal R ((a :: l) :: rs) := by
  refine ⟨fun s hs => ?_, fun s hs => ?_, ?_⟩
  · rcases mem_cons.1 hs with rfl | hs
    · exact cons_ne_nil a l
    · exact h.tail.ne_nil s hs
  · rcases mem_cons.1 hs with rfl | hs
    · exact (h.isChain _ mem_cons_self).right_of_append
    · exact h.tail.isChain s hs
  · cases rs with
    | nil => exact isChain_singleton _
    | cons r' rs =>
      obtain ⟨hbreak, hrest⟩ := isChain_cons_cons.1 h.breaks
      rw [getLast?_append_cons] at hbreak
      exact isChain_cons_cons.2 ⟨hbreak, hrest⟩

theorem Maximal.break_head (h : Maximal R (r :: rs)) :
    rs.flatten = [] ∨ ∃ x ∈ r.getLast?, ∃ y ∈ rs.flatten.head?, R x y = false := by
  cases rs with
  | nil => exact .inl rfl
  | cons r' rs =>
    obtain ⟨x, hx, y, hy, hlt⟩ := (isChain_cons_cons.1 h.breaks).1
    refine .inr ⟨x, hx, y, ?_, hlt⟩
    rw [flatten_cons, head?_append, hy]
    rfl

theorem Maximal.length_le_length (h : Maximal R rs) : rs.length ≤ rs.flatten.length := by
  induction rs with
  | nil => simp
  | cons r rs ih =>
    have hr := length_pos_of_ne_nil (h.ne_nil r mem_cons_self)
    have := ih h.tail
    simp only [flatten_cons, length_append, length_cons]
    omega

theorem Maximal.length_le {parts : List (List α)} (h : Maximal R rs)
    (hparts : ∀ p ∈ parts, p.IsChain fun a b => R a b = true) (he : rs.flatten = parts.flatten) : rs.length ≤ parts.length := by
  induction parts generalizing rs with
  | nil =>
    have := h.length_le_length
    simpa [he] using this
  | cons p parts ih =>
    cases rs with
    | nil => simp
    | cons r rs =>
      have ih : ∀ {rs}, Maximal R rs → rs.flatten = parts.flatten → rs.length ≤ parts.length := fun h he =>
        ih h (fun p hp => hparts p (mem_cons_of_mem _ hp)) he
      rcases append_eq_append_iff.1 he with ⟨s, hp, hrs⟩ | ⟨s, hr, hrest⟩
      · -- the run ends within the part, so with it
        cases s with
        | nil => exact Nat.succ_le_succ (ih h.tail hrs)
        | cons y s =>
          have hchain := hparts p mem_cons_self
          rcases h.break_head with hnil | ⟨x, hx, z, hz, hlt⟩
          · rw [hnil] at hrs
            cases hrs
          · obtain ⟨r0, rfl⟩ := getLast?_eq_some_iff.1 hx
            rw [hrs] at hz
            obtain rfl : y = z := Option.some.inj hz
            rw [hp, append_assoc, singleton_append] at hchain
            have hle := (isChain_append_cons_cons.1 hchain).2.1
            rw [hlt] at hle
            cases hle
      · cases s with
        | nil => exact Nat.succ_le_succ (ih h.tail hrest.symm)
        | cons y s =>
          subst hr
          have hlen := ih h.of_append (by rw [flatten_cons, hrest])
          simp only [length_cons] at hlen ⊢
          omega

end

end Lib.MergeRuns
