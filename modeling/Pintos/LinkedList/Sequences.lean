/-
  Linked lists as sequences.

  `Holds m S seq` says that the lists of `S` are well formed in `m`, apart from each other, and that the
  elements of the list `l` are those of `seq l`.  A place in a list is where its sequence is divided, `seq l
  = xs ++ ys`.
-/
import Pintos.Lib.Simulation
import Pintos.Lib.Total
import Pintos.LinkedList.Model

namespace Pintos.LinkedList

open Lib Prog Function List

/-- The elements of a list with its ends. -/
def nodes (l : ℕ) (xs : List ℕ) : List ℕ := headOf l :: (xs ++ [tailOf l])

/-- The last of the elements, or the head. -/
def last (l : ℕ) (xs : List ℕ) : ℕ := xs.getLastD (headOf l)

/-- The first of the elements, or the tail. -/
def first (l : ℕ) (ys : List ℕ) : ℕ := ys.headD (tailOf l)

section
variable {l x y : ℕ} {xs ys zs : List ℕ}

theorem tailOf_ne (l : ℕ) : tailOf l ≠ 0 := Nat.succ_ne_zero _

@[simp] theorem first_nil (l : ℕ) : first l [] = tailOf l := rfl

@[simp] theorem first_cons (l y : ℕ) (ys : List ℕ) : first l (y :: ys) = y := rfl

@[simp] theorem first_cons_append (l y : ℕ) (ys zs : List ℕ) : first l (y :: ys ++ zs) = y := rfl

@[simp] theorem last_nil (l : ℕ) : last l [] = headOf l := rfl

@[simp] theorem last_concat (l x : ℕ) (xs : List ℕ) : last l (xs ++ [x]) = x := by simp [last]

/-- The nodes before a place and behind it, with the elements `ss` that may be between them. -/
theorem nodes_split (l : ℕ) (xs ys : List ℕ) : ∃ d r, headOf l :: xs = d ++ [last l xs] ∧ ys ++ [tailOf l] = first l ys :: r ∧
    ∀ ss, nodes l (xs ++ (ss ++ ys)) = d ++ last l xs :: (ss ++ first l ys :: r) := by
  obtain ⟨d, hd⟩ : ∃ d, headOf l :: xs = d ++ [last l xs] := by
    induction xs using reverseRecOn with
    | nil => exact ⟨[], rfl⟩
    | append_singleton xs x => exact ⟨headOf l :: xs, by rw [last_concat, cons_append]⟩
  obtain ⟨r, hr⟩ : ∃ r, ys ++ [tailOf l] = first l ys :: r := by
    cases ys with
    | nil => exact ⟨[], rfl⟩
    | cons y ys => exact ⟨ys ++ [tailOf l], rfl⟩
  refine ⟨d, r, hd, hr, fun ss => ?_⟩
  rw [nodes, append_assoc, append_assoc, hr, ← cons_append, hd, append_assoc, singleton_append]

theorem mem_nodes : x ∈ nodes l xs ↔ x = headOf l ∨ x ∈ xs ∨ x = tailOf l := by simp [nodes]

theorem first_mem (l : ℕ) (xs ys : List ℕ) : first l ys ∈ nodes l (xs ++ ys) := by
  obtain ⟨d, r, -, -, h⟩ := nodes_split l xs ys
  rw [show xs ++ ys = xs ++ ([] ++ ys) from rfl, h]
  simp

theorem last_mem (l : ℕ) (xs ys : List ℕ) : last l xs ∈ nodes l (xs ++ ys) := by
  obtain ⟨d, r, -, -, h⟩ := nodes_split l xs ys
  rw [show xs ++ ys = xs ++ ([] ++ ys) from rfl, h]
  simp

theorem nodes_perm (l : ℕ) (xs ss ys : List ℕ) : (nodes l (xs ++ (ss ++ ys))).Perm (ss ++ nodes l (xs ++ ys)) := by
  have hnodes : ∀ zs, nodes l (xs ++ zs) = headOf l :: xs ++ (zs ++ [tailOf l]) := fun zs => by simp [nodes]
  rw [hnodes, hnodes, append_assoc]
  exact perm_append_comm_assoc ..

theorem ne_of_nodup (h : (nodes l (xs ++ ys)).Nodup) (hx : x ∈ headOf l :: xs) (hy : y ∈ ys ++ [tailOf l]) : x ≠ y := by
  rw [show nodes l (xs ++ ys) = headOf l :: xs ++ (ys ++ [tailOf l]) by simp [nodes]] at h
  exact fun he => (nodup_append'.1 h).2.2 hx (he ▸ hy)

theorem last_mem_cons (l : ℕ) (xs : List ℕ) : last l xs ∈ headOf l :: xs := by
  obtain ⟨d, -, hd, -⟩ := nodes_split l xs []
  rw [hd]
  exact mem_append_right d (mem_singleton_self _)

theorem first_mem_append (l : ℕ) (ys : List ℕ) : first l ys ∈ ys ++ [tailOf l] := by
  obtain ⟨-, r, -, hr, -⟩ := nodes_split l [] ys
  rw [hr]
  exact mem_cons_self

theorem first_append_eq (h : (nodes l (xs ++ (ys ++ zs))).Nodup) : first l (ys ++ zs) = first l zs ↔ ys = [] := by
  refine ⟨fun he => ?_, fun he => he ▸ rfl⟩
  cases ys with
  | nil => rfl
  | cons y ys =>
    rw [← append_assoc] at h
    exact absurd he (ne_of_nodup h (by simp) (first_mem_append l zs))

end

/-- The lists of `S` hold the sequences `seq`. -/
structure Holds (m : Links ℕ) (S : Set ℕ) (seq : ℕ → List ℕ) : Prop where
  chain : ∀ {l}, l ∈ S → m.Chain (nodes l (seq l))
  prev_head : ∀ {l}, l ∈ S → m.prev (headOf l) = 0
  next_tail : ∀ {l}, l ∈ S → m.next (tailOf l) = 0
  ne_null : ∀ {l}, l ∈ S → 0 ∉ nodes l (seq l)
  nodup : ∀ {l}, l ∈ S → (nodes l (seq l)).Nodup
  apart : ∀ {l l'}, l ∈ S → l' ∈ S → l ≠ l' → (nodes l (seq l)).Disjoint (nodes l' (seq l'))

/-- The element is in no list. -/
def Fresh (S : Set ℕ) (seq : ℕ → List ℕ) (e : ℕ) : Prop := e ≠ 0 ∧ ∀ l ∈ S, e ∉ nodes l (seq l)

/-! ## Links -/

section
variable {m : Links ℕ} {e v : ℕ}

theorem assert_run {P : Prop} [Decidable P] (h : P) (m : Links ℕ) : (assert P).run m = .ok ((), m) := by
  rw [assert, if_pos h]
  rfl

theorem readPrev_run (h : e ≠ 0) (m : Links ℕ) : (readPrev e).run m = .ok (m.prev e, m) := by
  unfold readPrev
  rw [run_bind_get, if_neg h]
  rfl

theorem readNext_run (h : e ≠ 0) (m : Links ℕ) : (readNext e).run m = .ok (m.next e, m) := by
  unfold readNext
  rw [run_bind_get, if_neg h]
  rfl

theorem writePrev_run (h : e ≠ 0) (v : ℕ) (m : Links ℕ) : (writePrev e v).run m = .ok ((), m.setPrev e v) := by
  rw [writePrev, if_neg h]
  rfl

theorem writeNext_run (h : e ≠ 0) (v : ℕ) (m : Links ℕ) : (writeNext e v).run m = .ok ((), m.setNext e v) := by
  rw [writeNext, if_neg h]
  rfl

theorem isHead_or_isInterior (he : e ≠ 0) (hn : m.next e ≠ 0) : isHead m e ∨ isInterior m e := by
  by_cases hp : m.prev e = 0 <;> simp [isHead, isInterior, he, hn, hp]

theorem isInterior_or_isTail (he : e ≠ 0) (hp : m.prev e ≠ 0) : isInterior m e ∨ isTail m e := by
  by_cases hn : m.next e = 0 <;> simp [isTail, isInterior, he, hn, hp]

theorem isInterior_of (he : e ≠ 0) (hp : m.prev e ≠ 0) (hn : m.next e ≠ 0) : isInterior m e := by simp [isInterior, he, hn, hp]

theorem listNext_run (he : e ≠ 0) (hn : m.next e ≠ 0) : (listNext e).run m = .ok (m.next e, m) := by
  unfold listNext
  rw [run_bind_get, run_bind_ok (assert_run (isHead_or_isInterior he hn) m), readNext_run he]

theorem listPrev_run (he : e ≠ 0) (hp : m.prev e ≠ 0) : (listPrev e).run m = .ok (m.prev e, m) := by
  unfold listPrev
  rw [run_bind_get, run_bind_ok (assert_run (isInterior_or_isTail he hp) m), readPrev_run he]

theorem listBegin_run {l : ℕ} (hl : l ≠ 0) (m : Links ℕ) : (listBegin l).run m = .ok (m.next (headOf l), m) := by
  unfold listBegin
  rw [run_bind_ok (assert_run hl m), readNext_run (show headOf l ≠ 0 from hl)]

end

/-! ## Places -/

namespace Holds

variable {m : Links ℕ} {S : Set ℕ} {seq : ℕ → List ℕ} {l x y : ℕ} {xs ys zs ss : List ℕ}

section

variable (h : Holds m S seq) (hl : l ∈ S)
include h hl

theorem adj (hseq : seq l = xs ++ ys) : m.Adj (last l xs) (first l ys) := by
  obtain ⟨d, r, -, -, hsplit⟩ := nodes_split l xs ys
  have hchain := h.chain hl
  rw [hseq, show xs ++ ys = xs ++ ([] ++ ys) from rfl, hsplit] at hchain
  exact hchain.adj

theorem links_cons (hseq : seq l = xs ++ y :: ys) : m.Adj (last l xs) y ∧ m.Adj y (first l ys) := by
  refine ⟨h.adj hl hseq, ?_⟩
  have := h.adj hl (show seq l = xs ++ [y] ++ ys by rw [hseq, append_assoc, singleton_append])
  rwa [last_concat] at this

theorem first_ne (hseq : seq l = xs ++ ys) : first l ys ≠ 0 := by
  intro he
  have := h.ne_null hl
  rw [hseq] at this
  exact this (he ▸ first_mem l xs ys)

theorem last_ne (hseq : seq l = xs ++ ys) : last l xs ≠ 0 := by
  intro he
  have := h.ne_null hl
  rw [hseq] at this
  exact this (he ▸ last_mem l xs ys)

theorem list_ne : l ≠ 0 := h.last_ne hl (show seq l = [] ++ seq l from rfl)

theorem head_not_mem : headOf l ∉ seq l := by
  intro hmem
  exact (nodup_cons.1 (h.nodup hl)).1 (mem_append_left _ hmem)

theorem tail_not_mem : tailOf l ∉ seq l := by
  intro hmem
  exact (nodup_append'.1 (nodup_cons.1 (h.nodup hl)).2).2.2 hmem (mem_singleton_self _)

theorem first_eq (hseq : seq l = xs ++ (ys ++ zs)) : first l (ys ++ zs) = first l zs ↔ ys = [] := by
  have hnodup := h.nodup hl
  rw [hseq] at hnodup
  exact first_append_eq hnodup

theorem first_eq_tail (hseq : seq l = xs ++ ys) : first l ys = tailOf l ↔ ys = [] := by
  have := h.first_eq hl (show seq l = xs ++ (ys ++ []) by rw [hseq, append_nil])
  rwa [append_nil] at this

theorem begin_run : (listBegin l).run m = .ok (first l (seq l), m) := by
  rw [← (h.adj hl (show seq l = [] ++ seq l from rfl)).1]
  exact listBegin_run (h.list_ne hl) m

theorem end_run : (listEnd l).run m = .ok (tailOf l, m) := by
  unfold listEnd
  rw [run_bind_ok (assert_run (h.list_ne hl) m)]
  rfl

theorem empty_run : (listEmpty l).run m = .ok ((seq l).isEmpty, m) := by
  unfold listEmpty
  rw [run_bind_ok (h.begin_run hl), run_bind_ok (h.end_run hl)]
  have : (first l (seq l) == tailOf l) = (seq l).isEmpty := by
    rw [Bool.eq_iff_iff, beq_iff_eq, List.isEmpty_iff]
    exact h.first_eq_tail hl (show seq l = [] ++ seq l from rfl)
  rw [this]
  rfl

theorem next_run (hseq : seq l = xs ++ ys) : (listNext (last l xs)).run m = .ok (first l ys, m) := by
  have hadj := h.adj hl hseq
  rw [← hadj.1]
  refine listNext_run (h.last_ne hl hseq) ?_
  rw [hadj.1]
  exact h.first_ne hl hseq

theorem prev_run (hseq : seq l = xs ++ ys) : (listPrev (first l ys)).run m = .ok (last l xs, m) := by
  have hadj := h.adj hl hseq
  rw [← hadj.2]
  refine listPrev_run (h.first_ne hl hseq) ?_
  rw [hadj.2]
  exact h.last_ne hl hseq

theorem next_cons_run (hseq : seq l = xs ++ y :: ys) : (listNext y).run m = .ok (first l ys, m) := by
  have := h.next_run hl (show seq l = xs ++ [y] ++ ys by rw [hseq, append_assoc, singleton_append])
  rwa [last_concat] at this

end

/-! ## Changes -/

theorem update_of_eq (h : Holds m S seq) (hseq : seq l = zs) : Holds m S (update seq l zs) := by
  rwa [← hseq, update_eq_self]

theorem replace {m' : Links ℕ} (h : Holds m S seq) (hl : l ∈ S)
    (hsame : ∀ l' ∈ S, l' ≠ l → Links.SameOn (nodes l' (seq l')) m m') (hchain : m'.Chain (nodes l zs)) (hprev : m'.prev (headOf l) = 0)
    (hnext : m'.next (tailOf l) = 0) (hnodup : (nodes l zs).Nodup) (hmem : ∀ x ∈ zs, x ∈ seq l ∨ Fresh S seq x) :
    Holds m' S (update seq l zs) := by
  have hother : ∀ {l'}, l' ≠ l → update seq l zs l' = seq l' := fun hne => update_of_ne hne _ _
  have hdisj : ∀ {l'}, l' ∈ S → l' ≠ l → (nodes l zs).Disjoint (nodes l' (seq l')) := by
    intro l' hl' hne x hx hx'
    have hin : ∀ y ∈ nodes l (seq l), y ∉ nodes l' (seq l') := fun y hy hy' => h.apart hl hl' (Ne.symm hne) hy hy'
    rcases mem_nodes.1 hx with hx | hx | hx
    · exact hin x (by simp [nodes, hx]) hx'
    · rcases hmem x hx with hold | hnew
      · exact hin x (by simp [nodes, hold]) hx'
      · exact hnew.2 l' hl' hx'
    · exact hin x (by simp [nodes, hx]) hx'
  refine ⟨fun {l'} hl' => ?_, fun {l'} hl' => ?_, fun {l'} hl' => ?_, fun {l'} hl' => ?_, fun {l'} hl' => ?_, fun {l1 l2} h1 h2 hne => ?_⟩
  · by_cases he : l' = l
    · rwa [he, update_self]
    · rw [hother he]
      exact (hsame l' hl' he).chain (h.chain hl')
  · by_cases he : l' = l
    · rwa [he]
    · rw [(hsame l' hl' he _ (by simp [nodes])).2]
      exact h.prev_head hl'
  · by_cases he : l' = l
    · rwa [he]
    · rw [(hsame l' hl' he _ (by simp [nodes])).1]
      exact h.next_tail hl'
  · by_cases he : l' = l
    · rw [he, update_self]
      intro hz
      rcases mem_nodes.1 hz with hz | hz | hz
      · exact h.ne_null hl (by simp [nodes, ← hz])
      · exact (hmem 0 hz).elim (fun hold => h.ne_null hl (by simp [nodes, hold])) fun hnew => hnew.1 rfl
      · exact h.ne_null hl (by simp [nodes, ← hz])
    · rw [hother he]
      exact h.ne_null hl'
  · by_cases he : l' = l
    · rwa [he, update_self]
    · rw [hother he]
      exact h.nodup hl'
  · by_cases he1 : l1 = l
    · have he2 : l2 ≠ l := fun he2 => hne (he1.trans he2.symm)
      rw [he1, update_self, hother he2]
      exact hdisj h2 he2
    · by_cases he2 : l2 = l
      · rw [he2, update_self, hother he1]
        exact disjoint_symm (hdisj h1 he1)
      · rw [hother he1, hother he2]
        exact h.apart h1 h2 hne

theorem sameOn_other (h : Holds m S seq) (hl : l ∈ S) (hx : x ∈ nodes l (seq l) ∨ Fresh S seq x) (hy : y ∈ nodes l (seq l) ∨ Fresh S seq y) :
    ∀ l' ∈ S, l' ≠ l → ∀ m', Links.SameOn (nodes l' (seq l')) m' (m'.link x y) := by
  intro l' hl' hne m'
  have hout : ∀ {z}, z ∈ nodes l (seq l) ∨ Fresh S seq z → z ∉ nodes l' (seq l') := by
    rintro z (hin | hout) hmem
    · exact h.apart hl hl' (Ne.symm hne) hin hmem
    · exact hout.2 l' hl' hmem
  exact Links.sameOn_link (hout hx) (hout hy)

/-- **Cutting** the elements `ss` out of a list. -/
theorem cut (h : Holds m S seq) (hl : l ∈ S) (hseq : seq l = xs ++ (ss ++ ys)) :
    Holds (m.link (last l xs) (first l ys)) S (update seq l (xs ++ ys)) ∧ (m.link (last l xs) (first l ys)).Chain ss ∧
      ∀ x ∈ ss, Fresh S (update seq l (xs ++ ys)) x := by
  obtain ⟨d, r, -, -, hsplit⟩ := nodes_split l xs ys
  have hchain := h.chain hl
  have hnodup := h.nodup hl
  rw [hseq] at hchain hnodup
  have hsub : List.Sublist (nodes l (xs ++ ys)) (nodes l (xs ++ (ss ++ ys))) :=
    (((List.Sublist.refl xs).append (sublist_append_right ss ys)).append_right _).cons_cons _
  have hn := hnodup.sublist hsub
  have hlast : last l xs ∈ nodes l (seq l) := hseq ▸ last_mem l xs (ss ++ ys)
  have hfirst : first l ys ∈ nodes l (seq l) := by
    rw [hseq, ← append_assoc]
    exact first_mem l (xs ++ ss) ys
  obtain ⟨hrest, hcut⟩ := (hsplit ss ▸ hchain).cut (hsplit ss ▸ hnodup)
  refine ⟨h.replace hl (fun l' hl' hne => h.sameOn_other hl (.inl hlast) (.inl hfirst) l' hl' hne m) ?_ ?_ ?_ hn ?_, hcut, fun x hx => ⟨?_, fun l' hl' => ?_⟩⟩
  · rw [show xs ++ ys = xs ++ ([] ++ ys) from rfl, hsplit]
    exact hrest
  · rw [Links.link_prev, if_neg (ne_of_nodup hn mem_cons_self (first_mem_append l ys))]
    exact h.prev_head hl
  · rw [Links.link_next, if_neg (ne_of_nodup hn (last_mem_cons l xs) (by simp)).symm]
    exact h.next_tail hl
  · intro x hx
    rw [hseq]
    simp only [mem_append] at hx ⊢
    tauto
  · rintro rfl
    exact h.ne_null hl (by simp [hseq, nodes, hx])
  · by_cases he : l' = l
    · subst he
      rw [update_self]
      exact (nodup_append'.1 ((nodes_perm l' xs ss ys).nodup_iff.1 hnodup)).2.2 hx
    · rw [update_of_ne he]
      exact h.apart hl hl' (Ne.symm he) (by simp [hseq, nodes, hx])

/-- **Pasting** elements into a list, at a place. -/
theorem paste {a : ℕ} (h : Holds m S seq) (hl : l ∈ S) (hseq : seq l = xs ++ ys) (hs : m.Chain (a :: ss))
    (hx : (a :: ss).getLast? = some x) (hn : (a :: ss).Nodup) (hfresh : ∀ y ∈ a :: ss, Fresh S seq y) :
    Holds ((m.link (last l xs) a).link x (first l ys)) S (update seq l (xs ++ (a :: ss ++ ys))) := by
  obtain ⟨d, r, -, -, hsplit⟩ := nodes_split l xs ys
  have hchain := h.chain hl
  have hnodup := h.nodup hl
  rw [hseq] at hchain hnodup
  have hlast : last l xs ∈ nodes l (seq l) := hseq ▸ last_mem l xs ys
  have hfirst : first l ys ∈ nodes l (seq l) := hseq ▸ first_mem l xs ys
  have hxs := hfresh x (mem_of_getLast? hx)
  have hn' : (nodes l (xs ++ (a :: ss ++ ys))).Nodup := by
    refine (nodes_perm l xs (a :: ss) ys).nodup_iff.2 (nodup_append'.2 ⟨hn, hnodup, fun y hy hy' => ?_⟩)
    exact (hfresh y hy).2 l hl (hseq ▸ hy')
  have hhead : headOf l ≠ a := fun he => (hfresh a mem_cons_self).2 l hl (by simp [nodes, ← he])
  have htail : tailOf l ≠ x := fun he => hxs.2 l hl (by simp [nodes, ← he])
  refine h.replace hl (fun l' hl' hne => ?_) ?_ ?_ ?_ hn' ?_
  · have ha := hfresh a mem_cons_self
    exact (h.sameOn_other hl (.inl hlast) (.inr ha) l' hl' hne _).trans (h.sameOn_other hl (.inr hxs) (.inl hfirst) l' hl' hne _)
  · rw [hsplit] at hn' ⊢
    exact Links.Chain.paste (hsplit [] ▸ hchain) hs hx hn'
  · rw [Links.link_prev, if_neg (ne_of_nodup hnodup mem_cons_self (first_mem_append l ys)), Links.link_prev, if_neg hhead]
    exact h.prev_head hl
  · rw [Links.link_next, if_neg htail, Links.link_next, if_neg (ne_of_nodup hnodup (last_mem_cons l xs) (by simp)).symm]
    exact h.next_tail hl
  · intro y hy
    rw [hseq]
    simp only [mem_append] at hy ⊢
    rcases hy with hy | hy | hy
    · exact .inl (.inl hy)
    · exact .inr (hfresh y hy)
    · exact .inl (.inr hy)

end Holds

end Pintos.LinkedList
