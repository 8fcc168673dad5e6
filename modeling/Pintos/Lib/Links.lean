/-
  Nodes with two links.

  `Adj a b` says that `b` is behind `a`, by the link of each to the other, and `Chain l` that the nodes of a
  list are so linked, one behind the other.
-/
import Mathlib.Data.List.Chain
import Mathlib.Data.List.Nodup
import Mathlib.Logic.Function.Basic

namespace Lib

open Function List

@[ext]
structure Links (ν : Type*) where
  prev : ν → ν
  next : ν → ν

namespace Links

variable {ν : Type*} {m m' : Links ν} {a b p x y : ν} {l r s : List ν}

def Adj (m : Links ν) (a b : ν) : Prop := m.next a = b ∧ m.prev b = a

def Chain (m : Links ν) (l : List ν) : Prop := l.IsChain m.Adj

theorem chain_singleton (m : Links ν) (a : ν) : m.Chain [a] := isChain_singleton a

theorem chain_cons_cons : m.Chain (a :: b :: l) ↔ m.Adj a b ∧ m.Chain (b :: l) := isChain_cons_cons

theorem chain_split : m.Chain (l ++ a :: b :: r) ↔ m.Chain (l ++ [a]) ∧ m.Adj a b ∧ m.Chain (b :: r) := isChain_append_cons_cons

theorem Chain.left (h : m.Chain (l ++ r)) : m.Chain l := List.IsChain.left_of_append h

theorem Chain.right (h : m.Chain (l ++ r)) : m.Chain r := List.IsChain.right_of_append h

theorem Chain.adj (h : m.Chain (l ++ a :: b :: r)) : m.Adj a b := (chain_split.1 h).2.1

/-- The links of the nodes in `l` are the same. -/
def SameOn (l : List ν) (m m' : Links ν) : Prop := ∀ x ∈ l, m'.next x = m.next x ∧ m'.prev x = m.prev x

theorem SameOn.chain (h : SameOn l m m') (hl : m.Chain l) : m'.Chain l := by
  refine List.IsChain.imp_of_mem_imp (fun x y hx hy hxy => ?_) hl
  exact ⟨(h x hx).1.trans hxy.1, (h y hy).2.trans hxy.2⟩

theorem SameOn.trans {m'' : Links ν} (h : SameOn l m m') (h' : SameOn l m' m'') : SameOn l m m'' := fun x hx =>
  ⟨(h' x hx).1.trans (h x hx).1, (h' x hx).2.trans (h x hx).2⟩

theorem SameOn.refl (l : List ν) (m : Links ν) : SameOn l m m := fun _ _ => ⟨rfl, rfl⟩

theorem SameOn.subset (h : SameOn l m m') (hs : s ⊆ l) : SameOn s m m' := fun x hx => h x (hs hx)

/-! ## Setting links -/

section
variable [DecidableEq ν]

def setPrev (m : Links ν) (a b : ν) : Links ν := { m with prev := update m.prev a b }

def setNext (m : Links ν) (a b : ν) : Links ν := { m with next := update m.next a b }

@[simp] theorem setPrev_next (m : Links ν) (a b : ν) : (m.setPrev a b).next = m.next := rfl

@[simp] theorem setNext_prev (m : Links ν) (a b : ν) : (m.setNext a b).prev = m.prev := rfl

@[simp] theorem setPrev_prev (m : Links ν) (a b x : ν) : (m.setPrev a b).prev x = if x = a then b else m.prev x :=
  update_apply ..

@[simp] theorem setNext_next (m : Links ν) (a b x : ν) : (m.setNext a b).next x = if x = a then b else m.next x :=
  update_apply ..

/-- `b` comes behind `a`. -/
def link (m : Links ν) (a b : ν) : Links ν := (m.setNext a b).setPrev b a

@[simp] theorem link_next (m : Links ν) (a b x : ν) : (m.link a b).next x = if x = a then b else m.next x := setNext_next ..

@[simp] theorem link_prev (m : Links ν) (a b x : ν) : (m.link a b).prev x = if x = b then a else m.prev x := setPrev_prev ..

theorem adj_link_self (m : Links ν) (a b : ν) : (m.link a b).Adj a b := by simp [Adj]

theorem Adj.link (h : m.Adj x y) (hx : x ≠ a) (hy : y ≠ b) : (m.link a b).Adj x y := by
  simp only [Adj, link_next, link_prev, if_neg hx, if_neg hy]
  exact h

theorem sameOn_link (ha : a ∉ l) (hb : b ∉ l) : SameOn l m (m.link a b) := by
  intro x hx
  rw [link_next, link_prev, if_neg (ne_of_mem_of_not_mem hx ha), if_neg (ne_of_mem_of_not_mem hx hb)]
  exact ⟨rfl, rfl⟩

/-- The links of two nodes set one by one, in the order in which an element is inserted. -/
theorem setPrev_setNext_eq_link (h : p ≠ x) :
    (((m.setPrev a p).setNext x b).setNext p a).setPrev b x = (m.link p a).link x b := by
  ext y <;> simp only [link, setPrev_prev, setPrev_next, setNext_prev, setNext_next]
  by_cases hp : y = p <;> by_cases hx : y = x <;> simp [hp, hx, h, h.symm]

/-- The links of the nodes in `l` are exchanged. -/
def swap (m : Links ν) (l : List ν) : Links ν where
  prev x := if x ∈ l then m.next x else m.prev x
  next x := if x ∈ l then m.prev x else m.next x

theorem swap_nil (m : Links ν) : m.swap [] = m := by ext <;> simp [swap]

theorem Chain.swap (h : m.Chain l) : (m.swap l).Chain l.reverse := by
  refine isChain_reverse.2 (List.IsChain.imp_of_mem_imp (fun x y hx hy hxy => ?_) h)
  simp only [Adj, Links.swap, if_pos hx, if_pos hy]
  exact ⟨hxy.2, hxy.1⟩

theorem sameOn_swap (h : l.Disjoint s) : SameOn l m (m.swap s) := by
  intro x hx
  have hs : x ∉ s := fun hs => h hx hs
  simp [swap, hs]

theorem Chain.link_last (h : m.Chain (l ++ [a])) (ha : a ∉ l) (hb : b ∉ l) (hab : b ≠ a) : (m.link a b).Chain (l ++ [a]) := by
  induction l with
  | nil => exact chain_singleton _ a
  | cons x l ih =>
    have hx : x ≠ a := fun he => ha (he ▸ mem_cons_self)
    have ih := fun h => ih h (fun hm => ha (mem_cons_of_mem _ hm)) fun hm => hb (mem_cons_of_mem _ hm)
    cases l with
    | nil => exact chain_cons_cons.2 ⟨(chain_cons_cons.1 h).1.link hx hab.symm, chain_singleton _ a⟩
    | cons y l =>
      obtain ⟨hxy, hrest⟩ := chain_cons_cons.1 h
      have hy : y ≠ b := fun he => hb (he ▸ mem_cons_of_mem _ mem_cons_self)
      exact chain_cons_cons.2 ⟨hxy.link hx hy, ih hrest⟩

theorem Chain.link_first (h : m.Chain (b :: r)) (ha : a ∉ r) (hb : b ∉ r) (hab : a ≠ b) : (m.link a b).Chain (b :: r) := by
  cases r with
  | nil => exact chain_singleton _ b
  | cons y r =>
    obtain ⟨hby, hrest⟩ := chain_cons_cons.1 h
    have hy : y ≠ b := fun he => hb (he ▸ mem_cons_self)
    exact chain_cons_cons.2 ⟨hby.link hab.symm hy, (sameOn_link ha hb).chain hrest⟩

/-- **Cutting** the nodes `s` out of a chain: the nodes before and behind them are linked. -/
theorem Chain.cut (h : m.Chain (l ++ p :: (s ++ b :: r))) (hn : (l ++ p :: (s ++ b :: r)).Nodup) :
    (m.link p b).Chain (l ++ p :: b :: r) ∧ (m.link p b).Chain s := by
  have hchain : m.Chain (l ++ [p] ++ (s ++ b :: r)) := by rwa [append_assoc, singleton_append]
  simp only [nodup_append, nodup_cons, mem_append, mem_cons, not_or] at hn
  obtain ⟨-, ⟨⟨hps, hpb, hpr⟩, -, ⟨hbr, -⟩, hsr⟩, hl⟩ := hn
  refine ⟨chain_split.2 ⟨?_, adj_link_self m p b, ?_⟩, ?_⟩
  · exact hchain.left.link_last (fun hm => hl p hm p (by simp) rfl) (fun hm => hl b hm b (by simp) rfl) (Ne.symm hpb)
  · exact hchain.right.right.link_first hpr hbr hpb
  · exact (sameOn_link hps fun hm => hsr b hm b (by simp) rfl).chain hchain.right.left

/-- **Pasting** a chain, from `a` to `x`, between the nodes `p` and `b` of another one. -/
theorem Chain.paste (h : m.Chain (l ++ p :: b :: r)) (hs : m.Chain (a :: s)) (hx : (a :: s).getLast? = some x)
    (hn : (l ++ p :: (a :: s ++ b :: r)).Nodup) : ((m.link p a).link x b).Chain (l ++ p :: (a :: s ++ b :: r)) := by
  obtain ⟨s', hs'⟩ := getLast?_eq_some_iff.1 hx
  obtain ⟨hleft, -, hright⟩ := chain_split.1 h
  have hxs : x ∈ a :: s := mem_of_getLast? hx
  rw [← singleton_append, ← append_assoc] at hn
  obtain ⟨hl, hrest, hdisj⟩ := nodup_append'.1 hn
  obtain ⟨ha, hb, hsr⟩ := nodup_append'.1 hrest
  obtain ⟨hls, hlr⟩ := disjoint_append_right.1 hdisj
  have hpl : p ∉ l := fun hm => (nodup_append'.1 hl).2.2 hm (mem_singleton_self p)
  have hp : p ∈ l ++ [p] := mem_append_right _ (mem_singleton_self p)
  -- the chain before, that between, and the one behind
  have h1 : ((m.link p a).link x b).Chain (l ++ [p]) := by
    refine (sameOn_link (fun hm => hls hm hxs) fun hm => hlr hm mem_cons_self).chain (hleft.link_last hpl ?_ ?_)
    · exact fun hm => hls (mem_append_left _ hm) mem_cons_self
    · rintro rfl
      exact hls hp mem_cons_self
  have h2 : ((m.link p a).link x b).Chain (a :: s) := by
    have hfirst := hs.link_first (fun hm => hls hp (mem_cons_of_mem _ hm)) (nodup_cons.1 ha).1
      fun he => hls hp (he ▸ mem_cons_self)
    rw [hs'] at hfirst ha hsr ⊢
    refine hfirst.link_last (fun hm => (nodup_append'.1 ha).2.2 hm (mem_singleton_self x)) ?_ ?_
    · exact fun hm => hsr (mem_append_left _ hm) mem_cons_self
    · rintro rfl
      exact hsr (mem_append_right _ (mem_singleton_self _)) mem_cons_self
  have h3 : ((m.link p a).link x b).Chain (b :: r) := by
    refine Chain.link_first ((sameOn_link (fun hm => hlr hp hm) fun hm => hsr mem_cons_self hm).chain hright) ?_
      (nodup_cons.1 hb).1 ?_
    · exact fun hm => hsr hxs (mem_cons_of_mem _ hm)
    · rintro rfl
      exact hsr hxs mem_cons_self
  have hjoin : ((m.link p a).link x b).Chain (a :: s ++ b :: r) := by
    rw [hs'] at h2 ⊢
    rw [append_assoc, singleton_append]
    exact chain_split.2 ⟨h2, adj_link_self _ x b, h3⟩
  refine chain_split.2 ⟨h1, (adj_link_self m p a).link ?_ ?_, hjoin⟩
  · rintro rfl
    exact hls hp hxs
  · rintro rfl
    exact hsr mem_cons_self mem_cons_self

end

end Links

end Lib
