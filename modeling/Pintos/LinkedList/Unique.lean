/-
  Removing duplicates from linked lists (list_unique), and inserting into sorted ones
  (list_insert_ordered).
-/
import Pintos.Lib.Blocks
import Pintos.LinkedList.Sort

namespace Pintos.LinkedList

open Lib MergeRuns Function

variable {m : Links ℕ} {S : Set ℕ} {seq : ℕ → List ℕ} {less : ℕ → ℕ → Bool} {l d e fuel : ℕ} {pre xs ys zs : List ℕ}

/-- Elements come to the end of the list `d`, unless that is null. -/
def appendTo (d : ℕ) (xs : List ℕ) (seq : ℕ → List ℕ) : ℕ → List ℕ := if d = 0 then seq else update seq d (seq d ++ xs)

/-- The list for duplicates is null, or a list other than `l`. -/
def Duplicates (S : Set ℕ) (l d : ℕ) : Prop := d = 0 ∨ d ∈ S ∧ d ≠ l

theorem appendTo_nil (d : ℕ) (seq : ℕ → List ℕ) : appendTo d [] seq = seq := by simp [appendTo]

theorem appendTo_appendTo (d : ℕ) (xs ys : List ℕ) (seq : ℕ → List ℕ) :
    appendTo d ys (appendTo d xs seq) = appendTo d (xs ++ ys) seq := by
  unfold appendTo
  split_ifs with hd
  · rfl
  · simp

theorem Duplicates.apply (h : Duplicates S l d) (xs : List ℕ) (seq : ℕ → List ℕ) : appendTo d xs seq l = seq l := by
  unfold appendTo
  rcases h with rfl | ⟨-, hne⟩
  · rfl
  · split_ifs with hd
    · rfl
    · exact update_of_ne hne.symm _ _

theorem Duplicates.update (h : Duplicates S l d) (xs ys zs : List ℕ) (seq : ℕ → List ℕ) :
    update (appendTo d xs (update seq l ys)) l zs = appendTo d xs (update seq l zs) := by
  unfold appendTo
  rcases h with rfl | ⟨-, hne⟩
  · simp
  · split_ifs with hd
    · simp
    · rw [update_of_ne hne, update_of_ne hne, update_comm hne, update_idem]

namespace Holds

theorem pushDuplicate_returns (h : Holds m S seq) (hd : Duplicates S l d) (he : Fresh S seq e) :
    Prog.Returns (pushDuplicate d e) m fun _ m' => Holds m' S (appendTo d [e] seq) := by
  unfold pushDuplicate appendTo
  rcases hd with rfl | ⟨hd, -⟩
  · simp only [ne_eq, not_true_eq_false, if_false, if_true]
    exact .pure h
  · have hd0 := h.list_ne hd
    rw [if_pos hd0, if_neg hd0]
    exact .of_run (h.pushBack_run hd he) (h.insert hd (List.append_nil _).symm he)

theorem uniqueLoop_returns (h : Holds m S seq) (hl : l ∈ S) (hd : Duplicates S l d) (hseq : seq l = pre ++ e :: xs)
    (hfuel : xs.length < fuel) : Prog.Returns (uniqueLoop less l d fuel e) m fun _ m' =>
      Holds m' S (appendTo d (dups less e xs) (update seq l (pre ++ e :: keep less e xs))) := by
  induction xs generalizing m seq pre e fuel with
  | nil =>
    obtain ⟨fuel, rfl⟩ : ∃ n, fuel = n + 1 := ⟨fuel - 1, by omega⟩
    refine .bind_run (h.next_cons_run hl hseq) ?_
    rw [first_nil, if_neg (by simp), dups, keep, appendTo_nil]
    exact .pure (h.update_of_eq hseq)
  | cons x xs ih =>
    obtain ⟨fuel, rfl⟩ : ∃ n, fuel = n + 1 := ⟨fuel - 1, by omega⟩
    have hseq' : seq l = pre ++ [e] ++ x :: xs := by rw [hseq, List.append_assoc, List.singleton_append]
    have hne : x ≠ tailOf l := fun he => List.cons_ne_nil x xs ((h.first_eq_tail hl hseq').1 he)
    refine .bind_run (h.next_cons_run hl hseq) ?_
    rw [first_cons, if_pos hne, dups, keep]
    by_cases hex : equiv less e x = true
    · rw [if_pos hex, if_pos hex, if_pos (show (!less e x && !less x e) = true from hex)]
      have hrem := h.remove hl hseq'
      refine .bind_run (h.remove_run hl hseq') (.bind (hrem.pushDuplicate_returns hd (h.fresh_of_remove hl hseq')) fun _ m' h' => ?_)
      have hl' : appendTo d [x] (update seq l (pre ++ [e] ++ xs)) l = pre ++ e :: xs := by
        rw [hd.apply, update_self, List.append_assoc, List.singleton_append]
      have hgo := ih h' hl' (Nat.lt_of_succ_lt_succ hfuel)
      rwa [hd.update, appendTo_appendTo, List.singleton_append] at hgo
    · rw [if_neg hex, if_neg hex, if_neg (show ¬(!less e x && !less x e) = true from hex)]
      have hgo := ih h hseq' (Nat.lt_of_succ_lt_succ hfuel)
      rwa [List.append_assoc, List.singleton_append] at hgo

theorem unique_returns (h : Holds m S seq) (hl : l ∈ S) (hd : Duplicates S l d) (hless : StrictWeak less)
    (hfuel : (seq l).length ≤ fuel) : Prog.Returns (listUnique fuel less l d) m fun _ m' =>
      Holds m' S (appendTo d (tails ((seq l).splitBy (equiv less))) (update seq l (heads ((seq l).splitBy (equiv less))))) := by
  refine .bind_run (assert_run (h.list_ne hl) m) (.bind_run (h.empty_run hl) ?_)
  cases hseq : seq l with
  | nil =>
    rw [List.isEmpty_nil, if_pos rfl, List.splitBy_nil]
    refine .pure ?_
    rw [show tails ([] : List (List ℕ)) = [] from rfl, appendTo_nil]
    exact h.update_of_eq hseq
  | cons e xs =>
    rw [List.isEmpty_cons, if_neg (by decide), (hless.heads_splitBy e xs).1, (hless.heads_splitBy e xs).2]
    refine .bind_run (h.begin_run hl) ?_
    rw [hseq, first_cons]
    rw [hseq] at hfuel
    exact h.uniqueLoop_returns hl hd (show seq l = [] ++ e :: xs from hseq) hfuel

/-! ## Insertion in order -/

theorem orderedLoop_run (h : Holds m S seq) (hl : l ∈ S) (hseq : seq l = xs ++ ys) (hxs : ∀ x ∈ xs, less e x = false)
    (hfuel : ys.length ≤ fuel) : ∃ us vs, seq l = us ++ vs ∧ (orderedLoop less (tailOf l) e fuel (first l ys)).run m = .ok (first l vs, m) ∧
      (∀ x ∈ us, less e x = false) ∧ ∀ y ∈ vs.head?, less e y = true := by
  induction ys generalizing xs fuel with
  | nil =>
    refine ⟨xs, [], hseq, ?_, hxs, by simp⟩
    cases fuel <;> simp [orderedLoop] <;> rfl
  | cons y ys ih =>
    obtain ⟨fuel, rfl⟩ : ∃ n, fuel = n + 1 := ⟨fuel - 1, by simp at hfuel; omega⟩
    have hne : y ≠ tailOf l := fun he => List.cons_ne_nil y ys ((h.first_eq_tail hl hseq).1 he)
    rw [first_cons, orderedLoop, if_pos hne]
    by_cases hlt : less e y = true
    · rw [if_pos hlt]
      exact ⟨xs, y :: ys, hseq, rfl, hxs, by simpa using hlt⟩
    · rw [if_neg hlt, Prog.run_bind_ok (h.next_cons_run hl hseq)]
      refine ih (show seq l = xs ++ [y] ++ ys by rw [hseq, List.append_assoc, List.singleton_append]) ?_ (Nat.le_of_succ_le_succ hfuel)
      intro x hx
      rcases List.mem_append.1 hx with hx | hx
      · exact hxs x hx
      · rw [List.mem_singleton.1 hx]
        exact Bool.eq_false_of_not_eq_true hlt

theorem insertOrdered_returns (h : Holds m S seq) (hl : l ∈ S) (hless : StrictWeak less) (he : Fresh S seq e)
    (hsorted : Sorted less (seq l)) (hfuel : (seq l).length ≤ fuel) :
    Prog.Returns (listInsertOrdered fuel less l e) m fun _ m' =>
      ∃ us vs, seq l = us ++ vs ∧ Holds m' S (update seq l (us ++ e :: vs)) ∧ Sorted less (us ++ e :: vs) ∧
        ∀ v ∈ vs, less e v = true := by
  obtain ⟨us, vs, hdiv, hrun, hus, hvs⟩ := h.orderedLoop_run hl (show seq l = [] ++ seq l from rfl) (by simp) hfuel
  obtain ⟨hsorted, hgt⟩ := hless.sorted_insert (hdiv ▸ hsorted) hus hvs
  refine .bind_run (assert_run (h.list_ne hl) m) (.bind_run (assert_run he.1 m) (.bind_run (h.begin_run hl) (.bind_run hrun ?_)))
  exact .of_run (h.insert_run hl hdiv he) ⟨us, vs, hdiv, h.insert hl hdiv he, hsorted, hgt⟩

end Holds

/-- **`list_unique`** keeps the first element of each block; **`list_sort` and `list_unique`** leave a strictly increasing list;
**`list_insert_ordered`** keeps a list sorted. -/
theorem unique_and_ordered (h : Holds m S seq) (hl : l ∈ S) (hless : StrictWeak less) (hfuel : (seq l).length < fuel) :
    (∀ d, Duplicates S l d → Prog.Returns (listUnique fuel less l d) m fun _ m' =>
      Holds m' S (appendTo d (tails ((seq l).splitBy (equiv less))) (update seq l (heads ((seq l).splitBy (equiv less)))))) ∧
    (∀ d, Duplicates S l d → Prog.Returns (do listSort fuel less l; listUnique fuel less l d) m fun _ m' =>
      ∃ ks ds, Holds m' S (appendTo d ds (update seq l ks)) ∧ (ks.Pairwise fun a b => less a b = true) ∧
        (ks ++ ds).Perm (seq l)) ∧
    (∀ e, Fresh S seq e → Sorted less (seq l) → Prog.Returns (listInsertOrdered fuel less l e) m fun _ m' =>
      ∃ us vs, seq l = us ++ vs ∧ Holds m' S (update seq l (us ++ e :: vs)) ∧ Sorted less (us ++ e :: vs) ∧
        ∀ v ∈ vs, less e v = true) := by
  refine ⟨fun d hd => h.unique_returns hl hd hless hfuel.le, fun d hd => ?_,
    fun e he hsorted => h.insertOrdered_returns hl hless he hsorted hfuel.le⟩
  refine .bind (sort_returns h hl hless hfuel) fun _ m' hys => ?_
  obtain ⟨ys, ⟨hperm, hsorted, -⟩, h'⟩ := hys
  have hlen : (update seq l ys l).length ≤ fuel := by
    rw [update_self, hperm.length_eq]
    exact hfuel.le
  have hunique := h'.unique_returns hl hd hless hlen
  rw [update_self, update_idem] at hunique
  refine hunique.mono fun _ m'' h'' => ⟨_, _, h'', ?_⟩
  cases ys with
  | nil => exact ⟨List.Pairwise.nil, hperm⟩
  | cons e ys =>
    rw [(hless.heads_splitBy e ys).1, (hless.heads_splitBy e ys).2]
    exact ⟨hless.keep_increasing hsorted, ((keep_dups_perm less e ys).cons e).trans hperm⟩

/-- Two equivalent elements: the second one is moved to the other list. -/
theorem unique_and_ordered_two : ∃ m, Holds m ({16, 64} : Set ℕ) (update (fun _ => []) 16 [104, 112]) ∧
    Prog.Returns (listUnique 3 (fun _ _ => decide (0 < 0)) 16 64) m fun _ m' =>
      ∃ seq', Holds m' ({16, 64} : Set ℕ) seq' ∧ seq' 16 = [104] ∧ seq' 64 = [112] := by
  obtain ⟨m, h⟩ := exists_two_lists
  have hd : Duplicates ({16, 64} : Set ℕ) 16 64 := .inr ⟨by simp, by decide⟩
  have hunique := (unique_and_ordered h (show 16 ∈ ({16, 64} : Set ℕ) by simp) (strictWeak_key fun _ => 0)
    (show _ < 3 by decide)).1 64 hd
  exact ⟨m, h, hunique.mono fun _ m' h' => ⟨_, h', rfl, rfl⟩⟩

end Pintos.LinkedList
