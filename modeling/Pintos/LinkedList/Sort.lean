/-
  Sorting linked lists (list_sort).

  A pass finds two runs, one behind the other, and merges them in place, by moving elements of the
  second before elements of the first.  What a pass does to the sequence is `mergePairs` of its runs.
-/
import Pintos.Lib.MergeRuns
import Pintos.LinkedList.Operations

namespace Pintos.LinkedList

open Lib MergeRuns Prog Function List

variable {m : Links ℕ} {S : Set ℕ} {seq : ℕ → List ℕ} {less : ℕ → ℕ → Bool} {l a b fuel : ℕ} {pre post as bs r : List ℕ}

namespace Holds

/-! ## Runs -/

section

variable (h : Holds m S seq) (hl : l ∈ S)
include h hl

theorem next_prev_run (hseq : seq l = pre ++ a :: b :: post) :
    (listNext a).run m = .ok (b, m) ∧ (listPrev b).run m = .ok (a, m) := by
  have hseq' : seq l = pre ++ [a] ++ b :: post := by rw [hseq, append_assoc, singleton_append]
  have hprev := h.prev_run hl hseq'
  rw [last_concat] at hprev
  exact ⟨h.next_cons_run hl hseq, hprev⟩

theorem isSortedLoop_run (hseq : seq l = pre ++ a :: (r ++ post))
    (hr : (a :: r).IsChain fun a b => le less a b = true) (hfuel : r.length < fuel) :
    (isSortedLoop less (first l post) fuel a).run m = .ok (true, m) := by
  induction r generalizing pre a fuel with
  | nil =>
    obtain ⟨fuel, rfl⟩ : ∃ n, fuel = n + 1 := ⟨fuel - 1, by omega⟩
    rw [isSortedLoop, run_bind_ok (h.next_cons_run hl hseq), nil_append, if_neg (by simp)]
    rfl
  | cons b r ih =>
    obtain ⟨fuel, rfl⟩ : ∃ n, fuel = n + 1 := ⟨fuel - 1, by omega⟩
    obtain ⟨hab, hr⟩ := isChain_cons_cons.1 hr
    obtain ⟨hnext, hprev⟩ := h.next_prev_run hl hseq
    have hseq' : seq l = pre ++ [a] ++ b :: (r ++ post) := by rw [hseq, append_assoc, singleton_append, cons_append]
    have hne : b ≠ first l post := fun he => by
      have := (h.first_eq hl (show seq l = pre ++ [a] ++ (b :: r ++ post) from hseq')).1 he
      cases this
    rw [isSortedLoop, run_bind_ok hnext, if_pos hne, run_bind_ok hprev, le_iff.1 hab, if_neg (by simp)]
    exact ih hseq' hr (Nat.lt_of_succ_lt_succ hfuel)

theorem isSorted_run (hseq : seq l = pre ++ (r ++ post))
    (hr : r.IsChain fun a b => le less a b = true) (hfuel : r.length ≤ fuel) :
    (isSorted fuel less (first l (r ++ post)) (first l post)).run m = .ok (true, m) := by
  unfold isSorted
  cases r with
  | nil =>
    rw [nil_append, if_neg (by simp)]
    rfl
  | cons a r =>
    rw [if_pos fun he => cons_ne_nil a r ((h.first_eq hl hseq).1 he)]
    exact h.isSortedLoop_run hl hseq hr hfuel

theorem runLoop_run (hseq : seq l = pre ++ a :: (r ++ post))
    (hr : (a :: r).IsChain fun a b => le less a b = true)
    (hend : post = [] ∨ ∃ x ∈ (a :: r).getLast?, ∃ y ∈ post.head?, le less x y = false) (hfuel : r.length < fuel) :
    (runLoop less (tailOf l) fuel a).run m = .ok (first l post, m) := by
  induction r generalizing pre a fuel with
  | nil =>
    obtain ⟨fuel, rfl⟩ : ∃ n, fuel = n + 1 := ⟨fuel - 1, by omega⟩
    have hseq' : seq l = pre ++ [a] ++ post := by rw [hseq, append_assoc, singleton_append, nil_append]
    rw [runLoop, run_bind_ok (h.next_cons_run hl hseq), nil_append]
    rcases hend with rfl | ⟨x, hx, y, hy, hlt⟩
    · rw [if_neg (by simp)]
      rfl
    · cases post with
      | nil => cases hy
      | cons z post =>
        obtain rfl : z = y := Option.some.inj hy
        obtain rfl : a = x := Option.some.inj hx
        have hne : z ≠ tailOf l := fun he => cons_ne_nil z post ((h.first_eq_tail hl hseq').1 he)
        rw [first_cons, if_pos hne, run_bind_ok (h.next_prev_run hl hseq).2, if_pos (le_eq_false_iff.1 hlt)]
        rfl
  | cons b r ih =>
    obtain ⟨fuel, rfl⟩ : ∃ n, fuel = n + 1 := ⟨fuel - 1, by omega⟩
    obtain ⟨hab, hr⟩ := isChain_cons_cons.1 hr
    obtain ⟨hnext, hprev⟩ := h.next_prev_run hl hseq
    have hseq' : seq l = pre ++ [a] ++ b :: (r ++ post) := by rw [hseq, append_assoc, singleton_append, cons_append]
    have hne : b ≠ tailOf l := fun he => cons_ne_nil b _ ((h.first_eq_tail hl hseq').1 he)
    rw [runLoop, run_bind_ok hnext, if_pos hne, run_bind_ok hprev, le_iff.1 hab, if_neg (by simp)]
    exact ih hseq' hr hend (Nat.lt_of_succ_lt_succ hfuel)

theorem findEndOfRun_run (hseq : seq l = pre ++ (r ++ post)) (hne : r ≠ [])
    (hr : r.IsChain fun a b => le less a b = true) (hend : post = [] ∨ ∃ x ∈ r.getLast?, ∃ y ∈ post.head?, le less x y = false)
    (hfuel : r.length ≤ fuel) : (findEndOfRun fuel less (first l (r ++ post)) (tailOf l)).run m = .ok (first l post, m) := by
  cases r with
  | nil => exact absurd rfl hne
  | cons a r =>
    have htail : first l (a :: r ++ post) ≠ tailOf l := fun he => cons_ne_nil a _ ((h.first_eq_tail hl hseq).1 he)
    unfold findEndOfRun
    rw [run_bind_ok (assert_run (h.first_ne hl hseq) m), run_bind_ok (assert_run (tailOf_ne l) m),
      run_bind_ok (assert_run htail m)]
    exact h.runLoop_run hl hseq hr hend hfuel

end

/-! ## Merging in place -/

theorem move_returns (h : Holds m S seq) (hl : l ∈ S) (hseq : seq l = pre ++ (as ++ b :: post)) :
    Prog.Returns (listSplice (first l (as ++ post)) b (first l post)) m fun _ m' =>
      Holds m' S (update seq l (pre ++ b :: (as ++ post))) := by
  have hseq' : seq l = pre ++ as ++ ([b] ++ post) := by rw [hseq, append_assoc, singleton_append]
  have hus : update seq l (pre ++ as ++ post) l = pre ++ (as ++ post) := by rw [update_self, append_assoc]
  have hsplice := h.splice hl hl hseq' getLast?_singleton hus
  rw [update_idem] at hsplice
  exact .of_run (h.splice_run hl hl hseq' getLast?_singleton hus) hsplice

theorem mergeLoop_done (less : ℕ → ℕ → Bool) (fuel : ℕ) {x y z : ℕ} (h : x = y ∨ y = z) (m : Links ℕ) :
    (mergeLoop less z fuel x y).run m = .ok ((), m) := by
  have hdone : ¬(x ≠ y ∧ y ≠ z) := by tauto
  cases fuel with
  | zero =>
    rw [mergeLoop, if_neg hdone]
    rfl
  | succ fuel =>
    rw [mergeLoop, if_neg hdone]
    rfl

theorem mergeLoop_returns (h : Holds m S seq) (hl : l ∈ S) (hseq : seq l = pre ++ (as ++ (bs ++ post)))
    (hfuel : as.length + bs.length ≤ fuel) :
    Prog.Returns (mergeLoop less (first l post) fuel (first l (as ++ (bs ++ post))) (first l (bs ++ post))) m fun _ m' =>
      Holds m' S (update seq l (pre ++ (as.merge bs (le less) ++ post))) := by
  induction fuel generalizing m seq pre as bs with
  | zero =>
    obtain ⟨rfl, rfl⟩ : as = [] ∧ bs = [] := by
      simp only [Nat.le_zero, Nat.add_eq_zero_iff, length_eq_zero_iff] at hfuel
      exact hfuel
    exact .of_run (mergeLoop_done less 0 (.inl rfl) m) (h.update_of_eq (by rwa [nil_merge]))
  | succ fuel ih =>
    cases as with
    | nil => exact .of_run (mergeLoop_done less _ (.inl rfl) m) (h.update_of_eq (by rwa [nil_merge]))
    | cons a as =>
      cases bs with
      | nil => exact .of_run (mergeLoop_done less _ (.inr rfl) m) (h.update_of_eq (by rwa [merge_right]))
      | cons b bs =>
        have hseq1 : seq l = pre ++ (a :: as) ++ (b :: bs ++ post) := by rw [hseq, append_assoc]
        have hab : a ≠ b := fun he => cons_ne_nil a as ((h.first_eq hl hseq).1 he)
        have hbp : b ≠ first l post := fun he => cons_ne_nil b bs ((h.first_eq hl hseq1).1 he)
        rw [mergeLoop, first_cons_append, first_cons_append, if_pos ⟨hab, hbp⟩, cons_merge_cons]
        by_cases hlt : less b a = true
        · -- `b` comes first
          have hprev := h.prev_run hl (show seq l = pre ++ (a :: as) ++ [b] ++ (bs ++ post) by simp [hseq])
          rw [last_concat] at hprev
          rw [if_neg (by simp [hlt]), if_neg (by simp [hlt])]
          refine .bind_run (h.next_cons_run hl (show seq l = pre ++ (a :: as) ++ b :: (bs ++ post) from hseq1)) (.bind_run hprev ?_)
          have hmove := h.move_returns hl (show seq l = pre ++ (a :: as ++ b :: (bs ++ post)) from hseq)
          refine .bind hmove fun _ m' h' => ?_
          have hgo := ih h' (show _ = pre ++ [b] ++ (a :: as ++ (bs ++ post)) by simp) (by simp at hfuel ⊢; omega)
          simpa using hgo
        · rw [if_pos (by simp [hlt]), if_pos (by simp [hlt])]
          refine .bind_run (h.next_cons_run hl hseq) ?_
          have hgo := ih h (show seq l = pre ++ [a] ++ (as ++ (b :: bs ++ post)) by simp [hseq]) (by simp at hfuel ⊢; omega)
          simpa using hgo

theorem inplaceMerge_returns (h : Holds m S seq) (hl : l ∈ S) (hseq : seq l = pre ++ (as ++ (bs ++ post)))
    (has : as.IsChain fun a b => le less a b = true) (hbs : bs.IsChain fun a b => le less a b = true)
    (hfuel : (seq l).length ≤ fuel) :
    Prog.Returns (inplaceMerge fuel less (first l (as ++ (bs ++ post))) (first l (bs ++ post)) (first l post)) m fun _ m' =>
      Holds m' S (update seq l (pre ++ (as.merge bs (le less) ++ post))) := by
  have hseq1 : seq l = pre ++ as ++ (bs ++ post) := by rw [hseq, append_assoc]
  have hseq2 : seq l = pre ++ as ++ bs ++ post := by rw [hseq1, append_assoc (pre ++ as)]
  rw [hseq2] at hfuel
  simp only [length_append] at hfuel
  refine .bind_run (assert_run (h.first_ne hl hseq) m) (.bind_run (assert_run (h.first_ne hl hseq1) m)
    (.bind_run (assert_run (h.first_ne hl hseq2) m) ?_))
  refine .bind_run (h.isSorted_run hl hseq has (by omega)) (.bind_run (assert_run rfl m) ?_)
  refine .bind_run (h.isSorted_run hl hseq1 hbs (by omega)) (.bind_run (assert_run rfl m) ?_)
  exact h.mergeLoop_returns hl hseq (by omega)

/-! ## Passes -/

theorem passLoop_returns {rs : List (List ℕ)} {turns cnt : ℕ} (h : Holds m S seq) (hl : l ∈ S) (hrs : Maximal (le less) rs)
    (hseq : seq l = pre ++ rs.flatten) (hturns : rs.length ≤ turns) (hfuel : (seq l).length ≤ fuel) :
    Prog.Returns (passLoop fuel less l turns (first l rs.flatten) cnt) m fun n m' =>
      n = cnt + (mergePairs less rs).length ∧ Holds m' S (update seq l (pre ++ (mergePairs less rs).flatten)) := by
  induction rs using mergePairs.induct generalizing m seq pre turns cnt with
  | case1 =>
    have hrun : (passLoop fuel less l turns (tailOf l) cnt).run m = .ok (cnt, m) := by
      cases turns <;> simp [passLoop] <;> rfl
    exact .of_run hrun ⟨rfl, h.update_of_eq hseq⟩
  | case2 r =>
    obtain ⟨turns, rfl⟩ : ∃ n, turns = n + 1 := ⟨turns - 1, by simp at hturns; omega⟩
    have hne := hrs.ne_nil r mem_cons_self
    have hseq' : seq l = pre ++ (r ++ []) := hseq
    have hlen : r.length ≤ fuel := by
      rw [hseq'] at hfuel
      simp at hfuel
      omega
    have hfirst : first l (r ++ []) ≠ tailOf l := fun he => hne (by simpa using (h.first_eq_tail hl hseq').1 he)
    rw [show [r].flatten = r ++ [] from rfl, passLoop, if_pos hfirst]
    refine .bind_run (h.findEndOfRun_run hl hseq' hne (hrs.isChain r mem_cons_self) (.inl rfl) hlen) ?_
    rw [first_nil, if_pos rfl]
    exact .pure ⟨rfl, h.update_of_eq hseq⟩
  | case3 r r' rs ih =>
    obtain ⟨turns, rfl⟩ : ∃ n, turns = n + 1 := ⟨turns - 1, by simp at hturns; omega⟩
    have hr := hrs.ne_nil r mem_cons_self
    have hr' := hrs.tail.ne_nil r' mem_cons_self
    have hseq1 : seq l = pre ++ (r ++ (r' ++ rs.flatten)) := hseq
    have hseq2 : seq l = pre ++ r ++ (r' ++ rs.flatten) := by rw [hseq1, append_assoc]
    have hlen : r.length ≤ fuel ∧ r'.length ≤ fuel := by
      rw [hseq1] at hfuel
      simp at hfuel
      omega
    have hfirst1 : first l (r ++ (r' ++ rs.flatten)) ≠ tailOf l := fun he => by
      have := (h.first_eq_tail hl hseq1).1 he
      simp [hr] at this
    have hfirst2 : first l (r' ++ rs.flatten) ≠ tailOf l := fun he => by
      have := (h.first_eq_tail hl hseq2).1 he
      simp [hr'] at this
    rw [show (r :: r' :: rs).flatten = r ++ (r' ++ rs.flatten) from rfl, passLoop, if_pos hfirst1]
    refine .bind_run (h.findEndOfRun_run hl hseq1 hr (hrs.isChain r mem_cons_self) hrs.break_head hlen.1) ?_
    rw [if_neg hfirst2]
    refine .bind_run (h.findEndOfRun_run hl hseq2 hr' (hrs.tail.isChain r' mem_cons_self) hrs.tail.break_head hlen.2) ?_
    refine .bind (h.inplaceMerge_returns hl hseq1 (hrs.isChain r mem_cons_self) (hrs.tail.isChain r' mem_cons_self) hfuel)
      fun _ m' h' => ?_
    have hseq' : update seq l (pre ++ (r.merge r' (le less) ++ rs.flatten)) l = pre ++ r.merge r' (le less) ++ rs.flatten := by
      rw [update_self, append_assoc]
    have hfuel' : (update seq l (pre ++ (r.merge r' (le less) ++ rs.flatten)) l).length ≤ fuel := by
      rw [hseq1] at hfuel
      simpa [Nat.add_assoc] using hfuel
    refine (ih h' hrs.tail.tail hseq' (by simp at hturns ⊢; omega) hfuel').mono fun n m'' hn => ?_
    obtain ⟨hn, h''⟩ := hn
    rw [update_idem] at h''
    refine ⟨?_, ?_⟩
    · rw [hn, mergePairs, length_cons]
      omega
    · rw [mergePairs, flatten_cons, ← append_assoc]
      exact h''

theorem sortLoop_returns {rs : List (List ℕ)} {turns : ℕ} (h : Holds m S seq) (hl : l ∈ S) (hless : StrictWeak less)
    (hrs : Maximal (le less) rs) (hseq : seq l = rs.flatten) (hturns : rs.length < turns) (hfuel : (seq l).length ≤ fuel) :
    Prog.Returns (sortLoop fuel less l turns) m fun _ m' =>
      ∃ ys, (ys.Perm (seq l) ∧ Sorted less ys ∧ Stable less (seq l) ys) ∧ Holds m' S (update seq l ys) := by
  induction turns generalizing m seq rs with
  | zero => omega
  | succ turns ih =>
    have hsorted : ∀ r ∈ rs, Sorted less r := fun r hr => hless.sorted_iff.2 (hrs.isChain r hr)
    have hmerged := hless.sorted_mergePairs hsorted
    have hperm := mergePairs_perm less rs
    have hstable := hless.stable_mergePairs hsorted
    have hlen := hrs.length_le_length
    rw [← hseq] at hlen hperm hstable
    refine .bind_run (h.begin_run hl) (.bind (hseq ▸ h.passLoop_returns hl hrs (show seq l = [] ++ rs.flatten from hseq)
      (hlen.trans hfuel) hfuel) fun n m' hn => ?_)
    obtain ⟨rfl, h'⟩ := hn
    rw [nil_append] at h'
    by_cases hcnt : 0 + (mergePairs less rs).length > 1
    · -- there are fewer runs than before
      have hrs' := maximal_splitBy (le less) (mergePairs less rs).flatten
      have hflat := flatten_splitBy (le less) (mergePairs less rs).flatten
      have hfewer := hrs'.length_le (fun r hr => hless.sorted_iff.1 (hmerged r hr)) hflat
      have hhalf := length_mergePairs less rs
      rw [if_pos hcnt]
      refine (ih h' hrs' ((update_self ..).trans hflat.symm) (by omega) ?_).mono fun _ m'' hys => ?_
      · rwa [update_self, hperm.length_eq]
      · obtain ⟨ys, ⟨hyperm, hysorted, hystable⟩, h''⟩ := hys
        rw [update_self] at hyperm hystable
        rw [update_idem] at h''
        exact ⟨ys, ⟨hyperm.trans hperm, hysorted, hstable.trans hystable⟩, h''⟩
    · rw [if_neg hcnt]
      refine .pure ⟨_, ⟨hperm, ?_, hstable⟩, h'⟩
      match hpairs : mergePairs less rs with
      | [] => exact sorted_nil
      | [r] =>
        rw [flatten_singleton]
        exact hmerged r (by simp [hpairs])
      | r :: r' :: rs' => simp [hpairs] at hcnt

end Holds

theorem sort_returns (h : Holds m S seq) (hl : l ∈ S) (hless : StrictWeak less) (hfuel : (seq l).length < fuel) :
    Prog.Returns (listSort fuel less l) m fun _ m' =>
      ∃ ys, (ys.Perm (seq l) ∧ Sorted less ys ∧ Stable less (seq l) ys) ∧ Holds m' S (update seq l ys) := by
  have hrs := maximal_splitBy (le less) (seq l)
  have hflat := flatten_splitBy (le less) (seq l)
  have hlen := hrs.length_le_length
  rw [hflat] at hlen
  refine .bind_run (assert_run (h.list_ne hl) m) (.bind (h.sortLoop_returns hl hless hrs hflat.symm (by omega) hfuel.le) fun _ m' hys => ?_)
  obtain ⟨ys, hsorts, h'⟩ := hys
  have hseq' : update seq l ys l = [] ++ (ys ++ []) := by simp
  have hsorted := h'.isSorted_run hl hseq' (hless.sorted_iff.1 hsorts.2.1) (hsorts.1.length_eq ▸ hfuel.le)
  refine .bind_run (h'.begin_run hl) (.bind_run (h'.end_run hl) ?_)
  rw [hseq', nil_append]
  exact .bind_run hsorted (.of_run (assert_run rfl m') ⟨ys, hsorts, h'⟩)

/-- **`list_sort`** returns, with every bound on its loops above the length of the list; the list is then sorted, has the elements it
had, and of two equivalent elements the one that was first still is. -/
theorem sort_sorts (h : Holds m S seq) (hl : l ∈ S) (hless : StrictWeak less) (hfuel : (seq l).length < fuel) :
    ∃ m' ys, (listSort fuel less l).run m = .ok ((), m') ∧ Holds m' S (update seq l ys) ∧ ys.Perm (seq l) ∧ Sorted less ys ∧
      ∀ a b, equiv less a b = true → [a, b].Sublist (seq l) → [a, b].Sublist ys := by
  obtain ⟨_, m', hrun, ys, ⟨hperm, hsorted, hstable⟩, h'⟩ := sort_returns h hl hless hfuel
  exact ⟨m', ys, hrun, h', hperm, hsorted, fun a b => hstable.pair hless⟩

/-- Two elements, by keys that are in the other order. -/
theorem sort_sorts_two : ∃ m m' ys, Holds m ({16, 64} : Set ℕ) (update (fun _ => []) 16 [104, 112]) ∧
    (listSort 3 (fun a b => decide (200 - a < 200 - b)) 16).run m = .ok ((), m') ∧ ys.Perm [104, 112] ∧
      Sorted (fun a b => decide (200 - a < 200 - b)) ys := by
  obtain ⟨m, h⟩ := exists_two_lists
  obtain ⟨m', ys, hrun, -, hperm, hsorted, -⟩ := sort_sorts h (show 16 ∈ ({16, 64} : Set ℕ) by simp)
    (strictWeak_key fun a => 200 - a) (show _ < 3 by decide)
  exact ⟨m, m', ys, h, hrun, hperm, hsorted⟩

end Pintos.LinkedList
