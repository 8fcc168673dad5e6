/-
  Hash tables are sets of elements modulo equality.

  `Sets` has at most one element for each class of equal elements.  The calls of hash.c, with any
  answers of `malloc` to `rehash`, are the operations on such sets (`sets_simulates`).
-/
import Pintos.Hash.Table
import Pintos.Lib.Simulation

namespace Pintos.Hash

open Lib Function List

variable {α : Type} (K : Keys α)

/-- The classes of equal elements. -/
def Keys.setoid : Setoid α where
  r a b := K.same a b = true
  iseqv := ⟨K.same_refl, Keys.same_symm, Keys.same_trans⟩

def Keys.cls (e : α) : Quotient K.setoid := Quotient.mk K.setoid e

theorem Keys.cls_eq {K : Keys α} {a b : α} : K.cls a = K.cls b ↔ K.same a b = true :=
  ⟨fun h => (Quotient.exact h :), fun h => Quotient.sound h⟩

/-- A set of elements modulo equality: the element of each class. -/
abbrev Sets := Quotient K.setoid → Option α

inductive HashOp (α : Type) where
  | insert (new : α)
  | replace (new : α)
  | find (e : α)
  | delete (e : α)
  | clear (destructor : Bool)

inductive HashResult (α : Type) where
  | elem (e : Option α)
  /-- the elements that the destructor was called for -/
  | cleared (destroyed : List α)

/-- A call. -/
def HashOp.exec [DecidableEq α] (t : Table α) : HashOp α → HashResult α × Table α
  | insert new => ((t.insert K new).map .elem id)
  | replace new => ((t.replace K new).map .elem id)
  | find e => (.elem (t.find K e), t)
  | delete e => ((t.delete K e).map .elem id)
  | clear destructor => ((t.clear destructor).map .cleared id)

/-- A call with its result. -/
def Table.Step [DecidableEq α] (t : Table α) (l : HashOp α × HashResult α) (t' : Table α) : Prop := l.1.exec K t = (l.2, t')

open Classical in
/-- The calls on sets. -/
inductive Sets.Step : Sets K → HashOp α × HashResult α → Sets K → Prop
  | insert {m e} : m (K.cls e) = none → Step m (.insert e, .elem none) (update m (K.cls e) (some e))
  | insertFound {m e old} : m (K.cls e) = some old → Step m (.insert e, .elem (some old)) m
  | replace {m e} : Step m (.replace e, .elem (m (K.cls e))) (update m (K.cls e) (some e))
  | find {m e} : Step m (.find e, .elem (m (K.cls e))) m
  | delete {m e} : Step m (.delete e, .elem (m (K.cls e))) (update m (K.cls e) none)
  /-- the destructor is called once for each element -/
  | clear {m} {l : List α} : l.Nodup → (∀ x, x ∈ l ↔ m (K.cls x) = some x) → Step m (.clear true, .cleared l) fun _ => none
  | clearNull {m} : Step m (.clear false, .cleared []) fun _ => none

/-- The elements of a table are a set. -/
structure Rel (t : Table α) (m : Sets K) : Prop where
  wf : t.Wf K
  mem : ∀ x, x ∈ t.elems ↔ m (K.cls x) = some x
  cls : ∀ {c x}, m c = some x → K.cls x = c

section
variable {K : Keys α} {t t' : Table α} {m m' : Sets K} {e x : α}

theorem Rel.find (h : Rel K t m) (e : α) : t.find K e = m (K.cls e) := by
  cases hm : m (K.cls e) with
  | none =>
    refine h.wf.find_eq_none.2 fun x hx => Bool.eq_false_iff.2 fun hsame => ?_
    rw [← Keys.cls_eq.2 hsame, (h.mem x).1 hx] at hm
    cases hm
  | some x =>
    have hcls := h.cls hm
    exact h.wf.find_eq_some.2 ⟨(h.mem x).2 (by rw [hcls, hm]), Keys.cls_eq.1 hcls⟩

theorem Rel.rehash (h : Rel K t m) : Rel K (t.rehash K) m :=
  ⟨h.wf.rehash, fun x => (Table.rehash_elems K t).mem_iff.trans (h.mem x), h.cls⟩

open Classical in
theorem Rel.insertElem (h : Rel K t m) (hnew : m (K.cls e) = none) :
    Rel K (t.insertElem (findBucket K t.bucketCnt e) e) (update m (K.cls e) (some e)) := by
  have hno := h.wf.find_eq_none.1 ((h.find e).trans hnew)
  refine ⟨h.wf.insertElem hno, fun x => ?_, fun {c x} hc => ?_⟩
  · rw [(Table.insertElem_elems h.wf e).mem_iff, mem_cons, h.mem, update_apply]
    split_ifs with hcls
    · rw [hcls, hnew, Option.some.injEq, eq_comm]
      exact or_iff_left nofun
    · exact or_iff_right fun hx => hcls (hx ▸ rfl)
  · rw [update_apply] at hc
    split_ifs at hc with heq
    · rw [heq, Option.some.inj hc]
    · exact h.cls hc

open Classical in
theorem Rel.removeElem [DecidableEq α] (h : Rel K t m) (hx : m (K.cls e) = some x) :
    Rel K (t.removeElem x) (update m (K.cls e) none) := by
  have hcls := h.cls hx
  have hmem : x ∈ t.elems := (h.mem x).2 (by rw [hcls, hx])
  have hperm := Table.removeElem_elems h.wf hmem
  have hnot : x ∉ (t.removeElem x).elems := by
    intro hin
    have hdistinct := (hperm.pairwise_iff Keys.not_same_symm).1 h.wf.distinct
    have := (pairwise_cons.1 hdistinct).1 x hin
    rw [K.same_refl] at this
    cases this
  refine ⟨h.wf.removeElem hmem, fun y => ?_, fun {c y} hc => ?_⟩
  · have hy := h.mem y
    rw [hperm.mem_iff, mem_cons] at hy
    rw [update_apply]
    split_ifs with hclsy
    · refine iff_of_false (fun hin => hnot ?_) nofun
      have hyx := hy.1 (.inr hin)
      rw [hclsy, hx] at hyx
      cases hyx
      exact hin
    · rw [← hy]
      refine (or_iff_right fun heq => hclsy ?_).symm
      rw [heq, hcls]
  · rw [update_apply] at hc
    split_ifs at hc
    exact h.cls hc

theorem clearLoop_spec (destructor : Bool) : ∀ (n i : ℕ) (destroyed : List α) (b : ℕ → List α),
    (Table.clearLoop destructor n i destroyed b).1 =
        destroyed ++ (if destructor then (List.range n).flatMap fun j => b (i + j) else []) ∧
      ∀ j, (Table.clearLoop destructor n i destroyed b).2 j = if i ≤ j ∧ j < i + n then [] else b j
  | 0, i, destroyed, b => by
    refine ⟨?_, fun j => (if_neg (by omega)).symm⟩
    cases destructor <;> exact (append_nil _).symm
  | n + 1, i, destroyed, b => by
    obtain ⟨h1, h2⟩ := clearLoop_spec destructor n (i + 1) (if destructor then destroyed ++ b i else destroyed) (update b i [])
    refine ⟨?_, fun j => ?_⟩
    · rw [Table.clearLoop, h1]
      cases destructor with
      | false => rfl
      | true =>
        have hrest : ((range n).flatMap fun j => update b i [] (i + 1 + j)) = (range n).flatMap fun j => b (i + j.succ) :=
          flatMap_range_congr fun j _ => by
            rw [update_of_ne (by omega), Nat.add_assoc, Nat.add_comm 1 j]
        simp only [if_true]
        rw [hrest, range_succ_eq_map, flatMap_cons, flatMap_map, append_assoc, Nat.add_zero]
    · rw [Table.clearLoop, h2, update_apply]
      split_ifs <;> first | rfl | omega

theorem clear_spec (t : Table α) (destructor : Bool) : (t.clear destructor).1 = (if destructor then t.elems else []) ∧
    (t.clear destructor).2.elems = [] ∧ (t.clear destructor).2.elemCnt = 0 ∧ (t.clear destructor).2.bucketCnt = t.bucketCnt ∧
    ∀ i < t.bucketCnt, (t.clear destructor).2.buckets i = [] := by
  obtain ⟨h1, h2⟩ := clearLoop_spec destructor t.bucketCnt 0 [] t.buckets
  have hempty : ∀ i < t.bucketCnt, (t.clear destructor).2.buckets i = [] := fun i hi =>
    (h2 i).trans (if_pos ⟨Nat.zero_le _, by omega⟩)
  refine ⟨?_, flatMap_eq_nil_iff.2 fun i hi => hempty i (mem_range.1 hi), rfl, rfl, hempty⟩
  unfold Table.clear Table.elems
  rw [h1, nil_append]
  simp only [Nat.zero_add]

theorem rel_cleared (hpow : ∃ k, 2 ≤ k ∧ t.bucketCnt = 2 ^ k) (destructor : Bool) :
    Rel K (t.clear destructor).2 fun _ => none := by
  obtain ⟨-, helems, hcnt, hbuckets, hempty⟩ := clear_spec t destructor
  refine ⟨⟨hbuckets ▸ hpow, fun i hi x hx => ?_, by rw [hcnt, helems]; rfl, by rw [helems]; exact .nil⟩, fun x => ?_, nofun⟩
  · rw [hempty i (hbuckets ▸ hi)] at hx
    cases hx
  · rw [helems]
    exact iff_of_false not_mem_nil nofun

/-- **Each call is a step on sets.** -/
theorem Rel.step [DecidableEq α] {l : HashOp α × HashResult α} (h : Rel K t m) (hstep : t.Step K l t') :
    ∃ m', m.Step K l m' ∧ Rel K t' m' := by
  classical
  obtain ⟨op, r⟩ := l
  unfold Table.Step at hstep
  cases op with
  | insert e =>
    have hfind := h.find e
    unfold Table.find at hfind
    dsimp only [HashOp.exec, Table.insert] at hstep
    rw [hfind] at hstep
    cases hm : m (K.cls e) with
    | none =>
      rw [hm] at hstep
      obtain ⟨rfl, rfl⟩ := Prod.mk.inj hstep
      exact ⟨_, .insert hm, (h.insertElem hm).rehash⟩
    | some old =>
      rw [hm] at hstep
      obtain ⟨rfl, rfl⟩ := Prod.mk.inj hstep
      exact ⟨m, .insertFound hm, h.rehash⟩
  | replace e =>
    have hfind := h.find e
    unfold Table.find at hfind
    dsimp only [HashOp.exec, Table.replace] at hstep
    rw [hfind] at hstep
    cases hm : m (K.cls e) with
    | none =>
      rw [hm] at hstep
      obtain ⟨rfl, rfl⟩ := Prod.mk.inj hstep
      have hs := Sets.Step.replace (m := m) (e := e)
      rw [hm] at hs
      exact ⟨_, hs, (h.insertElem hm).rehash⟩
    | some old =>
      rw [hm] at hstep
      obtain ⟨rfl, rfl⟩ := Prod.mk.inj hstep
      have hs := Sets.Step.replace (m := m) (e := e)
      have h' := (h.removeElem hm).insertElem (update_self ..)
      rw [update_idem] at h'
      rw [hm] at hs
      exact ⟨_, hs, h'.rehash⟩
  | find e =>
    obtain ⟨rfl, rfl⟩ := Prod.mk.inj hstep
    rw [h.find]
    exact ⟨m, .find, h⟩
  | delete e =>
    dsimp only [HashOp.exec, Table.delete] at hstep
    rw [h.find] at hstep
    have hs := Sets.Step.delete (m := m) (e := e)
    cases hm : m (K.cls e) with
    | none =>
      rw [hm] at hstep hs
      obtain ⟨rfl, rfl⟩ := Prod.mk.inj hstep
      rw [← hm, update_eq_self, hm] at hs
      exact ⟨m, hs, h⟩
    | some old =>
      rw [hm] at hstep hs
      obtain ⟨rfl, rfl⟩ := Prod.mk.inj hstep
      exact ⟨_, hs, (h.removeElem hm).rehash⟩
  | clear destructor =>
    obtain ⟨rfl, rfl⟩ := Prod.mk.inj hstep
    refine ⟨fun _ => none, ?_, rel_cleared h.wf.bucketCnt_eq destructor⟩
    change Sets.Step K m (_, .cleared (t.clear destructor).1) _
    rw [(clear_spec t destructor).1]
    cases destructor with
    | false => exact .clearNull
    | true =>
      refine .clear ?_ h.mem
      exact h.wf.distinct.imp fun {a b} hab heq => by
        rw [heq, K.same_refl] at hab
        cases hab

theorem sets_simulates [DecidableEq α] (K : Keys α) : Simulates (Table.Step K) (Sets.Step K) (Rel K) :=
  fun h hstep => h.step hstep

theorem rel_init {junk : ℕ → List α} {memory : ℕ → Bool} (h : Table.init junk memory = some t) : Rel K t fun _ => none := by
  unfold Table.init at h
  split_ifs at h
  cases h
  exact rel_cleared ⟨2, le_rfl, rfl⟩ false

/-- **A hash table is a set of elements modulo equality.**  Whatever calls are made after `hash_init`
    and however `malloc` answers, they return and change what they do on sets; the number of buckets is
    a power of two, every element is in its bucket, the elements are counted and no two are equal. -/
theorem hash_refines_sets [DecidableEq α] (K : Keys α) {junk : ℕ → List α} {memory : ℕ → Bool} {t0 : Table α}
    (hinit : Table.init junk memory = some t0) : ∀ calls t, Runs (Table.Step K) t0 calls t →
      t.Wf K ∧ ∃ m, Runs (Sets.Step K) (fun _ => none) calls m ∧ ∀ x, x ∈ t.elems ↔ m (K.cls x) = some x := by
  intro calls t hruns
  obtain ⟨m, hruns', hrel⟩ := hruns.simulate (sets_simulates K) (rel_init hinit)
  exact ⟨hrel.wf, m, hruns', hrel.mem⟩

/-- Numbers, two of which share a bucket if they have the same low bits. -/
def natKeys : Keys ℕ where
  hash n := n
  less a b := decide (a < b)
  order := by
    simp only [decide_eq_true_eq]
    exact { irrefl := lt_irrefl, trans := fun _ _ _ => lt_trans, incomp_trans := by omega }
  hash_eq {a b} h1 h2 := by
    rw [decide_eq_false_iff_not] at h1 h2
    omega

/-- Two elements in one bucket, one of which is inserted twice; the other one is deleted. -/
theorem hash_refines_sets_shared : ∃ t0 t, Table.init (fun _ => []) (fun _ => true) = some t0 ∧
    Runs (Table.Step natKeys) t0 [(.insert 1, .elem none), (.insert 5, .elem none), (.insert 5, .elem (some 5)),
      (.delete 1, .elem (some 1))] t ∧ t.Wf natKeys ∧ t.elems = [5] := by
  have hinit : Table.init (fun _ => ([] : List ℕ)) (fun _ => true) = some (Table.clear ⟨0, 4, fun _ => [], fun _ => true⟩ false).2 := rfl
  have hruns : Runs (Table.Step natKeys) (Table.clear ⟨0, 4, fun _ => [], fun _ => true⟩ false).2
      [(.insert 1, .elem none), (.insert 5, .elem none), (.insert 5, .elem (some 5)), (.delete 1, .elem (some 1))] _ :=
    .cons rfl (.cons rfl (.cons rfl (.cons rfl .nil)))
  exact ⟨_, _, hinit, hruns, (hash_refines_sets natKeys hinit _ _ hruns).1, rfl⟩

end

end Pintos.Hash
