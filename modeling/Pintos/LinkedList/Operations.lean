/-
  The operations on linked lists, and what they do to sequences.

  `Step` says what each call does to the sequences that the lists hold: insertion, removal, moving a
  segment and reversal.  Every other list keeps its sequence.  `Enabled` says which calls are allowed.
-/
import Mathlib.Data.Set.Insert
import Pintos.LinkedList.Sequences

namespace Pintos.LinkedList

open Lib Prog Function List

/-- The calls. -/
inductive Op where
  | insert (before elem : ℕ)
  | pushFront (list elem : ℕ)
  | pushBack (list elem : ℕ)
  | remove (elem : ℕ)
  | popFront (list : ℕ)
  | popBack (list : ℕ)
  | splice (before first last : ℕ)
  | reverse (list : ℕ)

/-- A call; its result is the element returned. -/
def Op.exec (fuel : ℕ) : Op → ListM (Option ℕ)
  | .insert before elem => do
    listInsert before elem
    pure none
  | .pushFront list elem => do
    listPushFront list elem
    pure none
  | .pushBack list elem => do
    listPushBack list elem
    pure none
  | .remove elem => do
    let e ← listRemove elem
    pure (some e)
  | .popFront list => do
    let e ← listPopFront list
    pure (some e)
  | .popBack list => do
    let e ← listPopBack list
    pure (some e)
  | .splice before first last => do
    listSplice before first last
    pure none
  | .reverse list => do
    listReverse fuel list
    pure none

/-- What a call does to the sequences.  A segment is moved by removing it and then inserting it. -/
inductive Step (S : Set ℕ) (seq : ℕ → List ℕ) : Op → Option ℕ → (ℕ → List ℕ) → Prop
  | insert {l e xs ys} : l ∈ S → seq l = xs ++ ys → Fresh S seq e →
      Step S seq (.insert (first l ys) e) none (update seq l (xs ++ e :: ys))
  | pushFront {l e} : l ∈ S → Fresh S seq e → Step S seq (.pushFront l e) none (update seq l (e :: seq l))
  | pushBack {l e} : l ∈ S → Fresh S seq e → Step S seq (.pushBack l e) none (update seq l (seq l ++ [e]))
  | remove {l e xs ys} : l ∈ S → seq l = xs ++ e :: ys →
      Step S seq (.remove e) (some (first l ys)) (update seq l (xs ++ ys))
  | popFront {l e ys} : l ∈ S → seq l = e :: ys → Step S seq (.popFront l) (some e) (update seq l ys)
  | popBack {l e xs} : l ∈ S → seq l = xs ++ [e] → Step S seq (.popBack l) (some e) (update seq l xs)
  | splice {l l' xs ss ys us vs} : l ∈ S → l' ∈ S → seq l = xs ++ (ss ++ ys) → update seq l (xs ++ ys) l' = us ++ vs →
      Step S seq (.splice (first l' vs) (first l (ss ++ ys)) (first l ys)) none
        (update (update seq l (xs ++ ys)) l' (us ++ (ss ++ vs)))
  | reverse {l} : l ∈ S → Step S seq (.reverse l) none (update seq l (seq l).reverse)

/-- `b` is an element of the list or its tail. -/
def Place (seq : ℕ → List ℕ) (l b : ℕ) : Prop := b ∈ seq l ∨ b = tailOf l

/-- The calls that are allowed. -/
inductive Enabled (S : Set ℕ) (seq : ℕ → List ℕ) : Op → Prop
  | insert {l b e} : l ∈ S → Place seq l b → Fresh S seq e → Enabled S seq (.insert b e)
  | pushFront {l e} : l ∈ S → Fresh S seq e → Enabled S seq (.pushFront l e)
  | pushBack {l e} : l ∈ S → Fresh S seq e → Enabled S seq (.pushBack l e)
  | remove {l e} : l ∈ S → e ∈ seq l → Enabled S seq (.remove e)
  | popFront {l} : l ∈ S → seq l ≠ [] → Enabled S seq (.popFront l)
  | popBack {l} : l ∈ S → seq l ≠ [] → Enabled S seq (.popBack l)
  /-- `before` is not one of the elements `ss` from `first` to `last` -/
  | splice {l l' b xs ss ys} : l ∈ S → l' ∈ S → seq l = xs ++ (ss ++ ys) → Place seq l' b → b ∉ ss →
      Enabled S seq (.splice b (first l (ss ++ ys)) (first l ys))
  | reverse {l} : l ∈ S → Enabled S seq (.reverse l)

section
variable {m : Links ℕ} {S : Set ℕ} {seq : ℕ → List ℕ} {l l' x y e : ℕ} {xs ys zs ss us vs : List ℕ}

theorem exists_place {b : ℕ} (h : b ∈ zs ∨ b = tailOf l) : ∃ us vs, zs = us ++ vs ∧ b = first l vs := by
  rcases h with h | h
  · obtain ⟨us, vs, hzs⟩ := append_of_mem h
    exact ⟨us, b :: vs, hzs, rfl⟩
  · exact ⟨zs, [], (append_nil zs).symm, h⟩

variable {op : Op}

theorem Enabled.step (h : Enabled S seq op) : ∃ r seq', Step S seq op r seq' := by
  cases h with
  | insert hl hb he =>
    obtain ⟨us, vs, hseq, rfl⟩ := exists_place hb
    exact ⟨_, _, .insert hl hseq he⟩
  | pushFront hl he => exact ⟨_, _, .pushFront hl he⟩
  | pushBack hl he => exact ⟨_, _, .pushBack hl he⟩
  | remove hl he =>
    obtain ⟨us, vs, hseq⟩ := append_of_mem he
    exact ⟨_, _, .remove hl hseq⟩
  | @popFront l hl hne =>
    obtain ⟨e, ys, hseq⟩ := exists_cons_of_ne_nil hne
    exact ⟨_, _, .popFront hl hseq⟩
  | @popBack l hl hne =>
    exact ⟨_, _, .popBack hl (dropLast_append_getLast hne).symm⟩
  | @splice l l' b xs ss ys hl hl' hseq hb hss =>
    have hplace : b ∈ update seq l (xs ++ ys) l' ∨ b = tailOf l' := by
      refine hb.imp_left fun hb => ?_
      by_cases he : l' = l
      · subst he
        rw [update_self]
        rw [hseq] at hb
        simp only [mem_append, hss, false_or] at hb ⊢
        exact hb
      · rwa [update_of_ne he]
    obtain ⟨us, vs, hus, rfl⟩ := exists_place hplace
    exact ⟨_, _, .splice hl hl' hseq hus⟩
  | reverse hl => exact ⟨_, _, .reverse hl⟩

/-! ## Insertion and removal -/

namespace Holds

theorem isPlace (h : Holds m S seq) (hl : l ∈ S) (hseq : seq l = xs ++ ys) : isInterior m (first l ys) ∨ isTail m (first l ys) := by
  refine isInterior_or_isTail (h.first_ne hl hseq) ?_
  rw [(h.adj hl hseq).2]
  exact h.last_ne hl hseq

theorem fresh_ne (hf : Fresh S seq e) (hl : l ∈ S) (hx : x ∈ nodes l (seq l)) : x ≠ e := fun he => hf.2 l hl (he ▸ hx)

variable {a : ℕ}

theorem paste_run {b : ℕ} (h : Holds m S seq) (hl : l ∈ S) (hseq : seq l = xs ++ ys) (ha : Fresh S seq a) (hx : Fresh S seq x)
    (hb : b = first l ys) : (do
      writePrev a (← readPrev b)
      writeNext x b
      writeNext (← readPrev b) a
      writePrev b x : ListM Unit).run m = .ok ((), (m.link (last l xs) a).link x b) := by
  subst hb
  have hadj := h.adj hl hseq
  have hb := h.first_ne hl hseq
  have hba : first l ys ≠ a := fresh_ne ha hl (hseq ▸ first_mem l xs ys)
  have hpx : last l xs ≠ x := fresh_ne hx hl (hseq ▸ last_mem l xs ys)
  have hprev : ((m.setPrev a (last l xs)).setNext x (first l ys)).prev (first l ys) = last l xs := by
    rw [Links.setNext_prev, Links.setPrev_prev, if_neg hba, hadj.2]
  rw [run_bind_ok (readPrev_run hb m), hadj.2, run_bind_ok (writePrev_run ha.1 _ _), run_bind_ok (writeNext_run hx.1 _ _),
    run_bind_ok (readPrev_run hb _), hprev, run_bind_ok (writeNext_run (h.last_ne hl hseq) _ _), writePrev_run hb,
    Links.setPrev_setNext_eq_link hpx]

section

variable (h : Holds m S seq) (hl : l ∈ S)
include h hl

theorem insert_run (hseq : seq l = xs ++ ys) (he : Fresh S seq e) :
    (listInsert (first l ys) e).run m = .ok ((), (m.link (last l xs) e).link e (first l ys)) := by
  unfold listInsert
  rw [run_bind_get, run_bind_ok (assert_run (h.isPlace hl hseq) m), run_bind_ok (assert_run he.1 m)]
  exact h.paste_run hl hseq he he rfl

theorem insert (hseq : seq l = xs ++ ys) (he : Fresh S seq e) :
    Holds ((m.link (last l xs) e).link e (first l ys)) S (update seq l (xs ++ e :: ys)) := by
  refine h.paste hl hseq (Links.chain_singleton m e) (getLast?_singleton) (nodup_singleton e) fun y hy => ?_
  rwa [mem_singleton.1 hy]

theorem isInterior_of_mem (he : e ∈ seq l) : isInterior m e := by
  obtain ⟨xs, ys, hseq⟩ := append_of_mem he
  obtain ⟨hprev, hnext⟩ := h.links_cons hl hseq
  refine isInterior_of (h.first_ne hl hseq) ?_ ?_
  · rw [hprev.2]
    exact h.last_ne hl hseq
  · rw [hnext.1]
    exact h.first_ne hl (show seq l = xs ++ [e] ++ ys by rw [hseq, append_assoc, singleton_append])

theorem remove_run (hseq : seq l = xs ++ e :: ys) :
    (listRemove e).run m = .ok (first l ys, m.link (last l xs) (first l ys)) := by
  obtain ⟨hprev, hnext⟩ := h.links_cons hl hseq
  have hnodup := h.nodup hl
  have hseq' : seq l = xs ++ [e] ++ ys := by rw [hseq, append_assoc, singleton_append]
  have he : e ≠ 0 := h.first_ne hl hseq
  have hp := h.last_ne hl hseq
  have hn := h.first_ne hl hseq'
  rw [hseq] at hnodup
  have hpe : e ≠ last l xs := (ne_of_nodup hnodup (last_mem_cons l xs) (by simp)).symm
  have hinner := h.isInterior_of_mem hl (show e ∈ seq l by simp [hseq])
  have hnext' : (m.setNext (last l xs) (first l ys)).next e = first l ys := by
    rw [Links.setNext_next, if_neg hpe, hnext.1]
  unfold listRemove
  rw [run_bind_get, run_bind_ok (assert_run hinner m), run_bind_ok (readPrev_run he m),
    run_bind_ok (readNext_run he m), hprev.2, hnext.1, run_bind_ok (writeNext_run hp _ _),
    run_bind_ok (readNext_run he _), hnext', run_bind_ok (readPrev_run he _), Links.setNext_prev, hprev.2,
    run_bind_ok (writePrev_run hn _ _), readNext_run he, Links.setPrev_next, hnext']
  rfl

theorem remove (hseq : seq l = xs ++ e :: ys) :
    Holds (m.link (last l xs) (first l ys)) S (update seq l (xs ++ ys)) :=
  (h.cut hl (show seq l = xs ++ ([e] ++ ys) from hseq)).1

theorem fresh_of_remove (hseq : seq l = xs ++ e :: ys) : Fresh S (update seq l (xs ++ ys)) e :=
  (h.cut hl (show seq l = xs ++ ([e] ++ ys) from hseq)).2.2 e (mem_singleton_self e)

theorem pushFront_run (he : Fresh S seq e) :
    (listPushFront l e).run m = .ok ((), (m.link (headOf l) e).link e (first l (seq l))) := by
  unfold listPushFront
  rw [run_bind_ok (h.begin_run hl)]
  exact h.insert_run hl (show seq l = [] ++ seq l from rfl) he

theorem pushBack_run (he : Fresh S seq e) :
    (listPushBack l e).run m = .ok ((), (m.link (last l (seq l)) e).link e (tailOf l)) := by
  unfold listPushBack
  rw [run_bind_ok (h.end_run hl)]
  exact h.insert_run hl (show seq l = seq l ++ [] from (append_nil _).symm) he

theorem front_run (hseq : seq l = e :: ys) : (listFront l).run m = .ok (e, m) := by
  have hempty : (seq l).isEmpty = false := by simp [hseq]
  have hseq' : seq l = [] ++ e :: ys := hseq
  have hadj := h.adj hl hseq'
  have hrun := readNext_run (h.last_ne hl hseq') m
  unfold listFront
  rw [run_bind_ok (h.empty_run hl), run_bind_ok (assert_run hempty m)]
  rwa [hadj.1, first_cons] at hrun

theorem back_run (hseq : seq l = xs ++ [e]) : (listBack l).run m = .ok (e, m) := by
  have hempty : (seq l).isEmpty = false := by simp [hseq]
  have hseq' : seq l = xs ++ [e] ++ [] := by rw [hseq, append_nil]
  have hadj := h.adj hl hseq'
  have hrun := readPrev_run (h.first_ne hl hseq') m
  unfold listBack
  rw [run_bind_ok (h.empty_run hl), run_bind_ok (assert_run hempty m)]
  rwa [hadj.2, last_concat] at hrun

theorem popFront_run (hseq : seq l = e :: ys) :
    (listPopFront l).run m = .ok (e, m.link (headOf l) (first l ys)) := by
  unfold listPopFront
  rw [run_bind_ok (h.front_run hl hseq), run_bind_ok (h.remove_run hl (show seq l = [] ++ e :: ys from hseq))]
  rfl

theorem popBack_run (hseq : seq l = xs ++ [e]) :
    (listPopBack l).run m = .ok (e, m.link (last l xs) (tailOf l)) := by
  unfold listPopBack
  rw [run_bind_ok (h.back_run hl hseq), run_bind_ok (h.remove_run hl hseq)]
  rfl

end

/-! ## Moving a segment -/

theorem last_append (hx : (a :: ss).getLast? = some x) : last l (xs ++ a :: ss) = x := by
  obtain ⟨ss', hss⟩ := getLast?_eq_some_iff.1 hx
  rw [hss, ← append_assoc, last_concat]

section

variable (h : Holds m S seq) (hl : l ∈ S) (hl' : l' ∈ S) (hseq : seq l = xs ++ (a :: ss ++ ys)) (hx : (a :: ss).getLast? = some x) (hus : update seq l (xs ++ ys) l' = us ++ vs)
include h hl hl' hseq hx hus

theorem spliceLinks_run :
    (spliceLinks (first l' vs) a x).run m =
      .ok ((), ((m.link (last l xs) (first l ys)).link (last l' us) a).link x (first l' vs)) := by
  obtain ⟨hcut, -, hfresh⟩ := h.cut hl hseq
  have hseq' : seq l = xs ++ a :: ss ++ ys := by rw [hseq, append_assoc]
  have hprev := h.adj hl hseq
  have hnext := h.adj hl hseq'
  rw [last_append hx] at hnext
  have ha := hfresh a mem_cons_self
  have hx' := hfresh x (mem_of_getLast? hx)
  have hxp : x ≠ last l xs := by
    refine (fresh_ne hx' hl ?_).symm
    rw [update_self]
    exact last_mem l xs ys
  have hnext' : (m.setNext (last l xs) (first l ys)).next x = first l ys := by
    rw [Links.setNext_next, if_neg hxp, hnext.1]
  have hprev' : m.prev a = last l xs := hprev.2
  unfold spliceLinks
  rw [run_bind_ok (readPrev_run ha.1 m), hprev', run_bind_ok (readNext_run hx'.1 m), hnext.1,
    run_bind_ok (writeNext_run (h.last_ne hl hseq) _ _), run_bind_ok (readNext_run hx'.1 _), hnext',
    run_bind_ok (readPrev_run ha.1 _), Links.setNext_prev, hprev', run_bind_ok (writePrev_run (h.first_ne hl hseq') _ _)]
  exact hcut.paste_run hl' hus ha hx' rfl

theorem splice_run :
    (listSplice (first l' vs) a (first l ys)).run m =
      .ok ((), ((m.link (last l xs) (first l ys)).link (last l' us) a).link x (first l' vs)) := by
  have hseq' : seq l = xs ++ a :: ss ++ ys := by rw [hseq, append_assoc]
  have hmem : ∀ {z}, z ∈ a :: ss → z ∈ seq l := fun hz => by
    rw [hseq]
    exact mem_append_right _ (mem_append_left _ hz)
  have hplace : isInterior m (first l' vs) ∨ isTail m (first l' vs) := by
    have hb : first l' vs ∈ seq l' ∨ first l' vs = tailOf l' := by
      have hvs := first_mem_append l' vs
      rw [mem_append, mem_singleton] at hvs
      refine hvs.imp_left fun hvs => ?_
      have hvs : first l' vs ∈ update seq l (xs ++ ys) l' := hus ▸ mem_append_right us hvs
      by_cases he : l' = l
      · subst he
        rw [update_self] at hvs
        rw [hseq]
        simp only [mem_append] at hvs ⊢
        tauto
      · rwa [update_of_ne he] at hvs
    obtain ⟨us', vs', hdiv, hfirst⟩ := exists_place hb
    rw [hfirst]
    exact h.isPlace hl' hdiv
  have hne : a ≠ first l ys := fun he => by
    have := (h.first_eq hl hseq).1 he
    cases this
  have hprev := h.prev_run hl hseq'
  rw [last_append hx] at hprev
  unfold listSplice
  rw [run_bind_get, run_bind_ok (assert_run hplace m), if_neg hne, run_bind_ok hprev,
    run_bind_ok (assert_run (h.isInterior_of_mem hl (hmem mem_cons_self)) m),
    run_bind_ok (assert_run (h.isInterior_of_mem hl (hmem (mem_of_getLast? hx))) m)]
  exact h.spliceLinks_run hl hl' hseq hx hus

end

theorem splice_nil_run (h : Holds m S seq) (hl : l ∈ S) (hseq : seq l = us ++ vs) (x : ℕ) :
    (listSplice (first l vs) x x).run m = .ok ((), m) := by
  unfold listSplice
  rw [run_bind_get, run_bind_ok (assert_run (h.isPlace hl hseq) m), if_pos rfl]
  rfl

theorem splice (h : Holds m S seq) (hl : l ∈ S) (hl' : l' ∈ S) (hseq : seq l = xs ++ (a :: ss ++ ys))
    (hx : (a :: ss).getLast? = some x) (hus : update seq l (xs ++ ys) l' = us ++ vs) :
    Holds (((m.link (last l xs) (first l ys)).link (last l' us) a).link x (first l' vs)) S
      (update (update seq l (xs ++ ys)) l' (us ++ (a :: ss ++ vs))) := by
  obtain ⟨hcut, hchain, hfresh⟩ := h.cut hl hseq
  have hnodup := h.nodup hl
  rw [hseq] at hnodup
  exact hcut.paste hl' hus hchain hx (nodup_append'.1 ((nodes_perm l xs (a :: ss) ys).nodup_iff.1 hnodup)).1 hfresh

/-! ## Reversal -/

theorem swap (h : Holds m S seq) (hfresh : ∀ x ∈ ss, Fresh S seq x) : Holds (m.swap ss) S seq := by
  have hsame : ∀ l ∈ S, Links.SameOn (nodes l (seq l)) m (m.swap ss) := fun l hl =>
    Links.sameOn_swap fun x hx hs => (hfresh x hs).2 l hl hx
  refine ⟨fun hl => (hsame _ hl).chain (h.chain hl), fun hl => ?_, fun hl => ?_, h.ne_null, h.nodup, h.apart⟩
  · rw [(hsame _ hl _ (by simp [nodes])).2]
    exact h.prev_head hl
  · rw [(hsame _ hl _ (by simp [nodes])).1]
    exact h.next_tail hl

theorem swapLinks_run (he : e ≠ 0) (m : Links ℕ) (hss : e ∉ ss) : (swapLinks e).run (m.swap ss) = .ok ((), m.swap (ss ++ [e])) := by
  unfold swapLinks
  rw [run_bind_ok (readPrev_run he _), run_bind_ok (readNext_run he _), run_bind_ok (writePrev_run he _ _), writeNext_run he]
  have : ((m.swap ss).setPrev e ((m.swap ss).next e)).setNext e ((m.swap ss).prev e) = m.swap (ss ++ [e]) := by
    ext y
    · by_cases hy : y = e <;> simp [Links.swap, hy, hss]
    · by_cases hy : y = e <;> simp [Links.swap, hy, hss]
  rw [this]

theorem reverseLoop_run (h : Holds m S seq) (hl : l ∈ S) {fuel : ℕ} (hseq : seq l = xs ++ ys) (hfuel : ys.length ≤ fuel) :
    (reverseLoop (tailOf l) fuel (first l ys)).run (m.swap xs) = .ok ((), m.swap (xs ++ ys)) := by
  induction ys generalizing xs fuel with
  | nil =>
    cases fuel <;> simp [reverseLoop] <;> rfl
  | cons y ys ih =>
    obtain ⟨fuel, rfl⟩ : ∃ n, fuel = n + 1 := ⟨fuel - 1, by simp at hfuel; omega⟩
    have hseq' : seq l = xs ++ [y] ++ ys := by rw [hseq, append_assoc, singleton_append]
    have hne : y ≠ tailOf l := fun he => by
      have := (h.first_eq_tail hl hseq).1 he
      cases this
    have hy : y ≠ 0 := h.first_ne hl hseq
    have hnodup := h.nodup hl
    rw [hseq] at hnodup
    have hxs : y ∉ xs := fun hmem => ne_of_nodup hnodup (mem_cons_of_mem _ hmem) (by simp) rfl
    have hprev : (m.swap (xs ++ [y])).prev y = first l ys := by
      rw [← (h.links_cons hl hseq).2.1]
      simp [Links.swap]
    rw [first_cons, reverseLoop, if_pos hne, run_bind_ok (swapLinks_run hy m hxs), run_bind_ok (readPrev_run hy _), hprev,
      ih hseq' (by simp at hfuel; omega), append_assoc, singleton_append]

theorem swapEnds_run (hh : headOf l ≠ 0) (ht : tailOf l ≠ 0) (m : Links ℕ) :
    (swapEnds l).run m = .ok ((), (m.setNext (headOf l) (m.prev (tailOf l))).setPrev (tailOf l) (m.next (headOf l))) := by
  unfold swapEnds
  rw [run_bind_ok (readNext_run hh m), run_bind_ok (readPrev_run ht m), run_bind_ok (writeNext_run hh _ _),
    writePrev_run ht]

theorem swapInner_run (hh : headOf l ≠ 0) (ht : tailOf l ≠ 0) (hx : m.next (headOf l) = x) (hy : m.prev (tailOf l) = y) (hx0 : x ≠ 0)
    (hy0 : y ≠ 0) : (swapInner l).run m = .ok ((), (m.setPrev x (m.next y)).setNext y (m.prev x)) := by
  unfold swapInner
  rw [run_bind_ok (readNext_run hh m), hx, run_bind_ok (readPrev_run ht m), hy, run_bind_ok (readPrev_run hx0 m),
    run_bind_ok (readNext_run hy0 m), run_bind_ok (writePrev_run hx0 _ _), writeNext_run hy0]

section

variable (h : Holds m S seq) (hl : l ∈ S) (hseq : seq l = a :: ss) (hx : (a :: ss).getLast? = some x)
include h hl hseq hx

theorem ends_eq :
    (((((m.swap (seq l)).setNext (headOf l) x).setPrev (tailOf l) a).setPrev x (headOf l)).setNext a (tailOf l)) =
      (((m.link (headOf l) (tailOf l)).swap (seq l)).link (headOf l) x).link a (tailOf l) := by
  have hhs := h.head_not_mem hl
  have hts := h.tail_not_mem hl
  have has : a ∈ seq l := hseq ▸ mem_cons_self
  have hxs : x ∈ seq l := hseq ▸ mem_of_getLast? hx
  have hah : a ≠ headOf l := ne_of_mem_of_not_mem has hhs
  have hxt : x ≠ tailOf l := ne_of_mem_of_not_mem hxs hts
  ext y
  · by_cases hy : y = tailOf l
    · simp [hy, hxt.symm, Links.swap]
    · by_cases hys : y ∈ seq l
      · have hyh : y ≠ headOf l := ne_of_mem_of_not_mem hys hhs
        simp [Links.swap, hy, hys, hyh]
      · simp [Links.swap, hy, hys]
  · by_cases hy : y = headOf l
    · simp [hy, hah.symm, Links.swap]
    · by_cases hys : y ∈ seq l
      · have hyt : y ≠ tailOf l := ne_of_mem_of_not_mem hys hts
        simp [Links.swap, hy, hys, hyt]
      · simp [Links.swap, hy, hys]

theorem ends_run :
    (do
      swapEnds l
      swapInner l : ListM Unit).run (m.swap (seq l)) =
      .ok ((), (((m.link (headOf l) (tailOf l)).swap (seq l)).link (headOf l) x).link a (tailOf l)) := by
  have hseq1 : seq l = [] ++ a :: ss := hseq
  have hseq2 : seq l = a :: ss ++ [] := by rw [hseq, append_nil]
  have hlast : last l (a :: ss) = x := show last l ([] ++ a :: ss) = x from last_append hx
  have hhead := h.adj hl hseq1
  have htail := h.adj hl hseq2
  rw [hlast] at htail
  have hh : headOf l ≠ 0 := h.last_ne hl hseq1
  have ht := tailOf_ne l
  have ha0 : a ≠ 0 := h.first_ne hl hseq1
  have hx0 : x ≠ 0 := hlast ▸ h.last_ne hl hseq2
  have hhs := h.head_not_mem hl
  have hts := h.tail_not_mem hl
  have has : a ∈ seq l := hseq ▸ mem_cons_self
  have hxs : x ∈ seq l := hseq ▸ mem_of_getLast? hx
  have hnext : (m.swap (seq l)).next (headOf l) = a := by simpa [Links.swap, hhs] using hhead.1
  have hprev : (m.swap (seq l)).prev (tailOf l) = x := by simpa [Links.swap, hts] using htail.2
  have hnext' : (((m.swap (seq l)).setNext (headOf l) x).setPrev (tailOf l) a).next a = headOf l := by
    simpa [Links.swap, has, ne_of_mem_of_not_mem has hhs] using hhead.2
  have hprev' : (((m.swap (seq l)).setNext (headOf l) x).setPrev (tailOf l) a).prev x = tailOf l := by
    simpa [Links.swap, hxs, ne_of_mem_of_not_mem hxs hts] using htail.1
  rw [run_bind_ok (swapEnds_run hh ht _), hnext, hprev, swapInner_run hh ht (by simp) (by simp) hx0 ha0, hnext', hprev',
    h.ends_eq hl hseq hx]

end

theorem reverse_run {fuel : ℕ} (h : Holds m S seq) (hl : l ∈ S) (hseq : seq l = a :: ss) (hx : (a :: ss).getLast? = some x)
    (hfuel : (seq l).length ≤ fuel) : (listReverse fuel l).run m =
      .ok ((), (((m.link (headOf l) (tailOf l)).swap (seq l)).link (headOf l) x).link a (tailOf l)) := by
  have hempty : (seq l).isEmpty = false := by simp [hseq]
  have hloop := h.reverseLoop_run hl (show seq l = [] ++ seq l from rfl) hfuel
  rw [Links.swap_nil] at hloop
  unfold listReverse
  rw [run_bind_ok (h.empty_run hl), hempty, if_neg (by decide), run_bind_ok (h.begin_run hl), run_bind_ok hloop]
  exact h.ends_run hl hseq hx

theorem reverse_nil_run (h : Holds m S seq) (hl : l ∈ S) (hseq : seq l = []) (fuel : ℕ) : (listReverse fuel l).run m = .ok ((), m) := by
  unfold listReverse
  rw [run_bind_ok (h.empty_run hl), hseq, isEmpty_nil, if_pos rfl]
  rfl

theorem reverse (h : Holds m S seq) (hl : l ∈ S) (hseq : seq l = a :: ss) (hx : (a :: ss).getLast? = some x) :
    Holds ((((m.link (headOf l) (tailOf l)).swap (seq l)).link (headOf l) x).link a (tailOf l)) S
      (update seq l (seq l).reverse) := by
  obtain ⟨hcut, hchain, hfresh⟩ := h.cut hl (show seq l = [] ++ (seq l ++ []) by simp)
  obtain ⟨rest, hrest⟩ : ∃ rest, (seq l).reverse = x :: rest := by
    obtain ⟨ss', hss⟩ := getLast?_eq_some_iff.1 hx
    exact ⟨ss'.reverse, by rw [hseq, hss, reverse_append, reverse_singleton, singleton_append]⟩
  have hnodup : (seq l).Nodup := (nodup_append'.1 (nodup_cons.1 (h.nodup hl)).2).1
  have hpaste := (hcut.swap hfresh).paste hl (show update seq l ([] ++ []) l = [] ++ [] from update_self ..)
    (hrest ▸ hchain.swap) (show (x :: rest).getLast? = some a by rw [← hrest, hseq]; simp) (hrest ▸ nodup_reverse.2 hnodup)
    fun y hy => hfresh y (mem_reverse.1 (hrest ▸ hy))
  rw [hrest]
  simpa using hpaste

end Holds

/-! ## New lists -/

theorem holds_empty (m : Links ℕ) (seq : ℕ → List ℕ) : Holds m ∅ seq where
  chain := False.elim
  prev_head := False.elim
  next_tail := False.elim
  ne_null := False.elim
  nodup := False.elim
  apart hl := hl.elim

/-- The links after `list_init`. -/
def initLinks (m : Links ℕ) (l : ℕ) : Links ℕ :=
  (((m.setPrev (headOf l) 0).setNext (headOf l) (tailOf l)).setPrev (tailOf l) (headOf l)).setNext (tailOf l) 0

theorem init_run (hl : l ≠ 0) (m : Links ℕ) : (listInit l).run m = .ok ((), initLinks m l) := by
  have hh : headOf l ≠ 0 := hl
  have ht := tailOf_ne l
  unfold listInit
  rw [run_bind_ok (assert_run hl m), run_bind_ok (writePrev_run hh _ _), run_bind_ok (writeNext_run hh _ _),
    run_bind_ok (writePrev_run ht _ _), writeNext_run ht]
  rfl

theorem holds_init (h : Holds m S seq) (hl : l ≠ 0) (hapart : ∀ l' ∈ S, (nodes l []).Disjoint (nodes l' (seq l'))) :
    Holds (initLinks m l) (insert l S) (update seq l []) := by
  have hht : headOf l ≠ tailOf l := by simp [headOf, tailOf]
  have hother : ∀ {l'}, l' ∈ S → l' ≠ l := by
    rintro l' hl' rfl
    exact hapart l' hl' (show headOf l' ∈ nodes l' [] by simp [nodes]) (by simp [nodes])
  have hsame : ∀ {l'}, l' ∈ S → Links.SameOn (nodes l' (seq l')) m (initLinks m l) := by
    intro l' hl' x hx
    have hxh : x ≠ headOf l := fun he => hapart l' hl' (show x ∈ nodes l [] by simp [nodes, he]) hx
    have hxt : x ≠ tailOf l := fun he => hapart l' hl' (show x ∈ nodes l [] by simp [nodes, he]) hx
    simp [initLinks, hxh, hxt]
  have hseq : ∀ {l'}, l' ∈ S → update seq l [] l' = seq l' := fun hl' => update_of_ne (hother hl') _ _
  refine ⟨?_, ?_, ?_, ?_, ?_, ?_⟩
  · rintro l' (rfl | hl')
    · rw [update_self]
      refine Links.chain_cons_cons.2 ⟨?_, Links.chain_singleton ..⟩
      simp [Links.Adj, initLinks, hht]
    · rw [hseq hl']
      exact (hsame hl').chain (h.chain hl')
  · rintro l' (rfl | hl')
    · simp [initLinks, hht]
    · rw [(hsame hl' _ (by simp [nodes])).2]
      exact h.prev_head hl'
  · rintro l' (rfl | hl')
    · simp [initLinks]
    · rw [(hsame hl' _ (by simp [nodes])).1]
      exact h.next_tail hl'
  · rintro l' (rfl | hl')
    · rw [update_self]
      simp [nodes, headOf, tailOf, hl.symm]
    · rw [hseq hl']
      exact h.ne_null hl'
  · rintro l' (rfl | hl')
    · rw [update_self]
      simp [nodes, hht]
    · rw [hseq hl']
      exact h.nodup hl'
  · rintro l1 l2 (rfl | h1) (rfl | h2) hne
    · exact absurd rfl hne
    · rw [update_self, hseq h2]
      exact hapart l2 h2
    · rw [update_self, hseq h1]
      exact disjoint_symm (hapart l1 h1)
    · rw [hseq h1, hseq h2]
      exact h.apart h1 h2 hne

/-! ## All calls -/

/-- The call returns `o.2`, when its loop is given enough turns. -/
def Call (m : Links ℕ) (o : Op × Option ℕ) (m' : Links ℕ) : Prop := ∃ n, ∀ fuel ≥ n, (o.1.exec fuel).run m = .ok (o.2, m')

/-- **Refinement.**  A call from links that hold sequences returns, and the links then hold the sequences it leaves. -/
theorem Step.refines {r : Option ℕ} {seq' : ℕ → List ℕ} (hstep : Step S seq op r seq') (h : Holds m S seq) :
    ∃ m', Call m (op, r) m' ∧ Holds m' S seq' := by
  cases hstep with
  | insert hl hseq he => exact ⟨_, ⟨0, fun _ _ => run_bind_ok (h.insert_run hl hseq he)⟩, h.insert hl hseq he⟩
  | pushFront hl he =>
    exact ⟨_, ⟨0, fun _ _ => run_bind_ok (h.pushFront_run hl he)⟩, h.insert hl (show seq _ = [] ++ seq _ from rfl) he⟩
  | pushBack hl he =>
    exact ⟨_, ⟨0, fun _ _ => run_bind_ok (h.pushBack_run hl he)⟩, h.insert hl (append_nil _).symm he⟩
  | remove hl hseq => exact ⟨_, ⟨0, fun _ _ => run_bind_ok (h.remove_run hl hseq)⟩, h.remove hl hseq⟩
  | popFront hl hseq =>
    exact ⟨_, ⟨0, fun _ _ => run_bind_ok (h.popFront_run hl hseq)⟩, h.remove hl (show seq _ = [] ++ _ :: _ from hseq)⟩
  | @popBack l e xs hl hseq =>
    have hrem := h.remove hl hseq
    rw [append_nil] at hrem
    exact ⟨_, ⟨0, fun _ _ => run_bind_ok (h.popBack_run hl hseq)⟩, hrem⟩
  | @splice l l' xs ss ys us vs hl hl' hseq hus =>
    cases ss with
    | nil =>
      have hseq : seq l = xs ++ ys := hseq
      rw [← hseq, update_eq_self] at hus ⊢
      rw [nil_append, nil_append, ← hus, update_eq_self]
      exact ⟨m, ⟨0, fun _ _ => run_bind_ok (h.splice_nil_run hl' hus _)⟩, h⟩
    | cons a ss =>
      obtain ⟨x, hx⟩ : ∃ x, (a :: ss).getLast? = some x := ⟨_, getLast?_eq_some_getLast (cons_ne_nil a ss)⟩
      exact ⟨_, ⟨0, fun _ _ => run_bind_ok (h.splice_run hl hl' hseq hx hus)⟩, h.splice hl hl' hseq hx hus⟩
  | @reverse l hl =>
    cases hseq : seq l with
    | nil =>
      rw [reverse_nil, ← hseq, update_eq_self]
      exact ⟨m, ⟨0, fun _ _ => run_bind_ok (h.reverse_nil_run hl hseq _)⟩, h⟩
    | cons a ss =>
      obtain ⟨x, hx⟩ : ∃ x, (a :: ss).getLast? = some x := ⟨_, getLast?_eq_some_getLast (cons_ne_nil a ss)⟩
      refine ⟨_, ⟨(seq l).length, fun _ hfuel => run_bind_ok (h.reverse_run hl hseq hx hfuel)⟩, ?_⟩
      rw [← hseq]
      exact h.reverse hl hseq hx

/-- Every call that is allowed, from links that hold sequences. -/
theorem calls_refine {op : Op} (h : Holds m S seq) (hop : Enabled S seq op) : (∃ r seq', Step S seq op r seq') ∧
    ∀ r seq', Step S seq op r seq' → ∃ m', Call m (op, r) m' ∧ Holds m' S seq' :=
  ⟨hop.step, fun _ _ hstep => hstep.refines h⟩

theorem exists_two_lists : ∃ m, Holds m ({16, 64} : Set ℕ) (update (fun _ => []) 16 [104, 112]) := by
  have hsets : (insert 16 (insert 64 ∅) : Set ℕ) = {16, 64} := by simp
  have h1 := holds_init (holds_empty ⟨id, id⟩ fun _ => []) (show 64 ≠ 0 by decide) fun l hl => hl.elim
  have h2 := holds_init h1 (show 16 ≠ 0 by decide) (by simp [nodes, headOf, tailOf])
  have h3 := h2.insert (l := 16) (e := 112) (by simp) (show [] = [] ++ [] from rfl) (by simp [Fresh, nodes, headOf, tailOf])
  have h4 := h3.insert (e := 104) (by simp) (show update (fun _ => []) 16 [112] 16 = [] ++ [112] from rfl)
    (by simp [Fresh, nodes, headOf, tailOf, update_apply])
  simp at h4
  exact ⟨_, h4⟩

/-- An element is moved to the other list. -/
theorem calls_refine_splice : ∃ m m' seq', Holds m ({16, 64} : Set ℕ) (update (fun _ => []) 16 [104, 112]) ∧
    Call m (.splice 72 104 112, none) m' ∧ Holds m' {16, 64} seq' ∧ seq' 16 = [112] ∧ seq' 64 = [104] := by
  obtain ⟨m, h⟩ := exists_two_lists
  have h16 : 16 ∈ ({16, 64} : Set ℕ) := by simp
  have h64 : 64 ∈ ({16, 64} : Set ℕ) := by simp
  have hseq : update (fun _ => []) 16 [104, 112] 16 = [] ++ ([104] ++ [112]) := rfl
  have hop : Enabled ({16, 64} : Set ℕ) (update (fun _ => []) 16 [104, 112]) (.splice 72 104 112) :=
    .splice h16 h64 hseq (.inr rfl) (by simp)
  have hstep : Step ({16, 64} : Set ℕ) (update (fun _ => []) 16 [104, 112]) (.splice 72 104 112) none
      (update (update (update (fun _ => []) 16 [104, 112]) 16 [112]) 64 [104]) :=
    .splice h16 h64 hseq (show _ = [] ++ [] from rfl)
  obtain ⟨m', hcall, h'⟩ := (calls_refine h hop).2 _ _ hstep
  exact ⟨m, m', _, h, hcall, h', rfl, rfl⟩

theorem runs_refine {ops : List (Op × Option ℕ)} {seq' : ℕ → List ℕ} (h : Holds m S seq)
    (hruns : Runs (fun seq o seq' => Step S seq o.1 o.2 seq') seq ops seq') : ∃ m', Runs Call m ops m' ∧ Holds m' S seq' := by
  have hsim : Simulates (fun seq (o : Op × Option ℕ) seq' => Step S seq o.1 o.2 seq') Call fun seq m => Holds m S seq :=
    fun h hstep => hstep.refines h
  exact hruns.simulate @hsim h

end

end Pintos.LinkedList
