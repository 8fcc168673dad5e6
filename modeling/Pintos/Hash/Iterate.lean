/-
  Iterating over hash tables (hash_first, hash_next and hash_apply of lib/kernel/hash.c).

  The buckets are an array of linked lists.  An iterator is a bucket and an element of it, at first the
  head of the first bucket.  What it has still to give are the elements behind it, `At`.
-/
import Pintos.Hash.Sets
import Pintos.LinkedList.Sequences

namespace Pintos.Hash

open Lib LinkedList Prog List

/-- `&buckets[i]`; a list is two elements of eight bytes. -/
def bucketAt (base i : ℕ) : ℕ := base + 16 * i

/-- `struct hash_iterator`, without the table. -/
structure Iterator where
  bucket : ℕ
  elem : ℕ

def hashFirst (base : ℕ) : ListM Iterator := do
  let head ← listHead base
  pure ⟨base, head⟩

/-- The loop of `hash_next`. -/
def advance (base bucketCnt : ℕ) : ℕ → Iterator → ListM Iterator
  | 0, _ => throw .bound
  | fuel + 1, i => do
    let end_ ← listEnd i.bucket
    if i.elem = end_ then
      if i.bucket + 16 ≥ bucketAt base bucketCnt then pure ⟨i.bucket + 16, 0⟩
      else do
        let elem ← listBegin (i.bucket + 16)
        advance base bucketCnt fuel ⟨i.bucket + 16, elem⟩
    else pure i

/-- `hash_next`: the iterator afterwards, which holds the element returned. -/
def hashNext (base bucketCnt fuel : ℕ) (i : Iterator) : ListM Iterator := do
  let elem ← listNext i.elem
  advance base bucketCnt fuel ⟨i.bucket, elem⟩

/-- `hash_next` is called until it returns the null pointer: what it returned before. -/
def nextLoop (base bucketCnt fuel : ℕ) : ℕ → Iterator → ListM (List ℕ)
  | 0, _ => throw .bound
  | turns + 1, i => do
    let i ← hashNext base bucketCnt fuel i
    if i.elem = 0 then pure []
    else do
      let rest ← nextLoop base bucketCnt fuel turns i
      pure (i.elem :: rest)

/-- `hash_first`, and `hash_next` until it returns the null pointer. -/
def iterate (base bucketCnt fuel : ℕ) : ListM (List ℕ) := do
  nextLoop base bucketCnt fuel fuel (← hashFirst base)

/-- The loop of `hash_apply` over a bucket. -/
def applyLoop (action : ℕ → ListM Unit) (bucket : ℕ) : ℕ → ℕ → ListM Unit
  | 0, elem => if elem ≠ tailOf bucket then throw .bound else pure ()
  | fuel + 1, elem =>
    if elem ≠ tailOf bucket then do
      let next ← listNext elem
      action elem
      applyLoop action bucket fuel next
    else pure ()

/-- The loop of `hash_apply` over the buckets, with `n` turns left. -/
def applyBuckets (action : ℕ → ListM Unit) (base fuel : ℕ) : ℕ → ℕ → ListM Unit
  | 0, _ => pure ()
  | n + 1, i => do
    applyLoop action (bucketAt base i) fuel (← listBegin (bucketAt base i))
    applyBuckets action base fuel n (i + 1)

def hashApply (action : ℕ → ListM Unit) (base bucketCnt fuel : ℕ) : ListM Unit := applyBuckets action base fuel bucketCnt 0

/-! ## Tables in memory -/

def bucketLists (base cnt : ℕ) : Set ℕ := {l | ∃ i < cnt, l = bucketAt base i}

def bucketSeq (base : ℕ) (buckets : ℕ → List ℕ) (l : ℕ) : List ℕ := buckets ((l - base) / 16)

/-- The buckets at `base` hold the elements of the table. -/
def Stored (m : Links ℕ) (base : ℕ) (t : Table ℕ) : Prop := Holds m (bucketLists base t.bucketCnt) (bucketSeq base t.buckets)

variable {m : Links ℕ} {base fuel i : ℕ} {t : Table ℕ} {K : Keys ℕ} {it : Iterator} {r xs ys : List ℕ}

theorem bucketSeq_bucketAt (base i : ℕ) (buckets : ℕ → List ℕ) : bucketSeq base buckets (bucketAt base i) = buckets i := by
  simp [bucketSeq, bucketAt]

theorem bucketAt_succ (base i : ℕ) : bucketAt base i + 16 = bucketAt base (i + 1) := by
  unfold bucketAt
  omega

theorem bucketAt_le {cnt : ℕ} : bucketAt base cnt ≤ bucketAt base i ↔ cnt ≤ i := by
  unfold bucketAt
  omega

/-- The elements of the buckets from the index `i` on. -/
def Table.elemsFrom (t : Table ℕ) (i : ℕ) : List ℕ := (List.range (t.bucketCnt - i)).flatMap fun k => t.buckets (i + k)

theorem elemsFrom_zero (t : Table ℕ) : t.elemsFrom 0 = t.elems := by simp [Table.elemsFrom, Table.elems]

theorem elemsFrom_cons (h : i < t.bucketCnt) : t.elemsFrom i = t.buckets i ++ t.elemsFrom (i + 1) := by
  unfold Table.elemsFrom
  rw [show t.bucketCnt - i = t.bucketCnt - (i + 1) + 1 by omega, flatMap_range_from]

theorem elemsFrom_of_ge (h : t.bucketCnt ≤ i) : t.elemsFrom i = [] := by
  rw [Table.elemsFrom, Nat.sub_eq_zero_of_le h]
  rfl

theorem elems_nodup (h : t.Wf K) : t.elems.Nodup := by
  refine h.distinct.imp fun {a b} hab he => ?_
  rw [he, K.same_refl] at hab
  cases hab

/-! ## The iterator -/

/-- The elements `r` are still to come: the iterator is behind the elements `xs` of its bucket. -/
def At (t : Table ℕ) (base : ℕ) (it : Iterator) (r : List ℕ) : Prop :=
  ∃ i xs ys, i < t.bucketCnt ∧ it = ⟨bucketAt base i, last (bucketAt base i) xs⟩ ∧ t.buckets i = xs ++ ys ∧ r = ys ++ t.elemsFrom (i + 1)

theorem first_run (h : Stored m base t) (hpos : 0 < t.bucketCnt) : ∃ it, (hashFirst base).run m = .ok (it, m) ∧ At t base it t.elems := by
  have hmem : base ∈ bucketLists base t.bucketCnt := ⟨0, hpos, by simp [bucketAt]⟩
  refine ⟨⟨base, headOf base⟩, ?_, 0, [], t.buckets 0, hpos, by simp [bucketAt], rfl, ?_⟩
  · unfold hashFirst listHead
    rw [bind_assoc, run_bind_ok (assert_run (Holds.list_ne h hmem) m)]
    rfl
  · rw [← elemsFrom_zero, elemsFrom_cons hpos]

theorem advance_run (h : Stored m base t) (hi : i < t.bucketCnt) (hseq : t.buckets i = xs ++ ys) (hfuel : t.bucketCnt - i ≤ fuel) :
    ∃ it, (advance base t.bucketCnt fuel ⟨bucketAt base i, first (bucketAt base i) ys⟩).run m = .ok (it, m) ∧
      (ys ++ t.elemsFrom (i + 1) = [] ∧ it.elem = 0 ∨
        ∃ e r, ys ++ t.elemsFrom (i + 1) = e :: r ∧ it.elem = e ∧ e ≠ 0 ∧ At t base it r) := by
  induction fuel generalizing i xs ys with
  | zero => omega
  | succ fuel ih =>
    have hl : bucketAt base i ∈ bucketLists base t.bucketCnt := ⟨i, hi, rfl⟩
    have hseq' : bucketSeq base t.buckets (bucketAt base i) = xs ++ ys := by rw [bucketSeq_bucketAt, hseq]
    rw [advance, run_bind_ok (Holds.end_run h hl)]
    cases ys with
    | cons y ys =>
      have hne : y ≠ tailOf (bucketAt base i) := fun he => cons_ne_nil y ys ((Holds.first_eq_tail h hl hseq').1 he)
      rw [first_cons, if_neg hne]
      refine ⟨_, rfl, .inr ⟨y, ys ++ t.elemsFrom (i + 1), rfl, rfl, Holds.first_ne h hl hseq', i, xs ++ [y], ys, hi, ?_, ?_, rfl⟩⟩
      · rw [last_concat]
      · rw [hseq, append_assoc, singleton_append]
    | nil =>
      rw [first_nil, if_pos rfl, bucketAt_succ, nil_append]
      by_cases hlast : i + 1 < t.bucketCnt
      · have hl' : bucketAt base (i + 1) ∈ bucketLists base t.bucketCnt := ⟨i + 1, hlast, rfl⟩
        rw [if_neg (by rw [ge_iff_le, bucketAt_le]; omega), run_bind_ok (Holds.begin_run h hl'), bucketSeq_bucketAt,
          elemsFrom_cons hlast]
        exact ih hlast (show t.buckets (i + 1) = [] ++ t.buckets (i + 1) from rfl) (by omega)
      · rw [if_pos (by rw [ge_iff_le, bucketAt_le]; omega), elemsFrom_of_ge (by omega)]
        exact ⟨_, rfl, .inl ⟨rfl, rfl⟩⟩

theorem next_run (h : Stored m base t) (hit : At t base it r) (hfuel : t.bucketCnt ≤ fuel) :
    ∃ it', (hashNext base t.bucketCnt fuel it).run m = .ok (it', m) ∧
      (r = [] ∧ it'.elem = 0 ∨ ∃ e r', r = e :: r' ∧ it'.elem = e ∧ e ≠ 0 ∧ At t base it' r') := by
  obtain ⟨i, xs, ys, hi, rfl, hseq, rfl⟩ := hit
  have hl : bucketAt base i ∈ bucketLists base t.bucketCnt := ⟨i, hi, rfl⟩
  have hseq' : bucketSeq base t.buckets (bucketAt base i) = xs ++ ys := by rw [bucketSeq_bucketAt, hseq]
  unfold hashNext
  rw [run_bind_ok (Holds.next_run h hl hseq')]
  exact advance_run h hi hseq (by omega)

theorem nextLoop_run {turns : ℕ} (h : Stored m base t) (hit : At t base it r) (hfuel : t.bucketCnt ≤ fuel) (hturns : r.length < turns) :
    (nextLoop base t.bucketCnt fuel turns it).run m = .ok (r, m) := by
  induction r generalizing it turns with
  | nil =>
    obtain ⟨turns, rfl⟩ : ∃ n, turns = n + 1 := ⟨turns - 1, by omega⟩
    obtain ⟨it', hrun, ⟨-, hnull⟩ | ⟨e, r', hr, -⟩⟩ := next_run h hit hfuel
    · rw [nextLoop, run_bind_ok hrun, if_pos hnull]
      rfl
    · cases hr
  | cons e r ih =>
    obtain ⟨turns, rfl⟩ : ∃ n, turns = n + 1 := ⟨turns - 1, by omega⟩
    obtain ⟨it', hrun, ⟨hr, -⟩ | ⟨e', r', hr, helem, hne, hit'⟩⟩ := next_run h hit hfuel
    · cases hr
    · obtain ⟨rfl, rfl⟩ := cons.inj hr
      rw [nextLoop, run_bind_ok hrun, helem, if_neg hne, run_bind_ok (ih hit' (Nat.lt_of_succ_lt_succ hturns))]
      rfl

/-! ## Applying an action -/

/-- The heads of the buckets. -/
def heads (t : Table ℕ) (base : ℕ) : List ℕ := (List.range t.bucketCnt).map fun i => headOf (bucketAt base i)

/-- The action may do anything to its element, and to what is not in the table or was visited before; it leaves the heads of the
buckets as they are, and the elements that are still to come. -/
def Spares (action : ℕ → ListM Unit) (t : Table ℕ) (base : ℕ) : Prop :=
  ∀ visited e rest, t.elems = visited ++ e :: rest → ∀ m m', (action e).run m = .ok ((), m') → Links.SameOn (heads t base ++ rest) m m'

theorem applyLoop_run {action : ℕ → ListM Unit} {m' : Links ℕ} {visited : List ℕ} {k k' : ListM Unit} (h : Stored m base t)
    (haction : Spares action t base) (hi : i < t.bucketCnt) (hseq : t.buckets i = xs ++ ys)
    (helems : t.elems = visited ++ (ys ++ t.elemsFrom (i + 1))) (hfuel : ys.length ≤ fuel)
    (hsame : Links.SameOn (heads t base ++ (ys ++ t.elemsFrom (i + 1))) m m')
    (hk : ∀ m', Links.SameOn (heads t base ++ t.elemsFrom (i + 1)) m m' → k.run m' = k'.run m') :
    (applyLoop action (bucketAt base i) fuel (first (bucketAt base i) ys) >>= fun _ => k).run m' =
      (forM ys action >>= fun _ => k').run m' := by
  induction ys generalizing xs visited fuel m' with
  | nil =>
    have hdone : applyLoop action (bucketAt base i) fuel (tailOf (bucketAt base i)) = pure () := by
      cases fuel <;> simp [applyLoop]
    rw [first_nil, hdone, forM_nil, pure_bind, pure_bind]
    exact hk m' hsame
  | cons y ys ih =>
    obtain ⟨fuel, rfl⟩ : ∃ n, fuel = n + 1 := ⟨fuel - 1, by simp at hfuel; omega⟩
    have hl : bucketAt base i ∈ bucketLists base t.bucketCnt := ⟨i, hi, rfl⟩
    have hseq' : bucketSeq base t.buckets (bucketAt base i) = xs ++ y :: ys := by rw [bucketSeq_bucketAt, hseq]
    have hseq'' : bucketSeq base t.buckets (bucketAt base i) = xs ++ [y] ++ ys := by
      rw [hseq', append_assoc, singleton_append]
    have hne : y ≠ tailOf (bucketAt base i) := fun he => cons_ne_nil y ys ((Holds.first_eq_tail h hl hseq').1 he)
    have hnext : m'.next y = first (bucketAt base i) ys := by
      rw [(hsame y (by simp)).1]
      exact (Holds.links_cons h hl hseq').2.1
    have hrun : (listNext y).run m' = .ok (first (bucketAt base i) ys, m') := by
      rw [← hnext]
      refine listNext_run (Holds.first_ne h hl hseq') ?_
      rw [hnext]
      exact Holds.first_ne h hl hseq''
    rw [first_cons, applyLoop, if_pos hne, forM_cons, bind_assoc, run_bind_ok hrun, bind_assoc, bind_assoc]
    refine run_bind_congr fun _ m'' haction' => ?_
    have hspared := haction visited y (ys ++ t.elemsFrom (i + 1)) helems m' m'' haction'
    refine ih (show t.buckets i = xs ++ [y] ++ ys by rw [hseq, append_assoc, singleton_append])
      (show t.elems = visited ++ [y] ++ (ys ++ t.elemsFrom (i + 1)) by rw [helems]; simp) (Nat.le_of_succ_le_succ hfuel) ?_
    exact (hsame.subset (by simp)).trans hspared

theorem applyBuckets_run {action : ℕ → ListM Unit} {m' : Links ℕ} {visited : List ℕ} {n : ℕ} (h : Stored m base t)
    (haction : Spares action t base) (hn : i + n = t.bucketCnt) (helems : t.elems = visited ++ t.elemsFrom i)
    (hfuel : t.elems.length ≤ fuel) (hsame : Links.SameOn (heads t base ++ t.elemsFrom i) m m') :
    (applyBuckets action base fuel n i).run m' = (forM (t.elemsFrom i) action).run m' := by
  induction n generalizing i visited m' with
  | zero =>
    rw [elemsFrom_of_ge (by omega)]
    rfl
  | succ n ih =>
    have hi : i < t.bucketCnt := by omega
    have hl : bucketAt base i ∈ bucketLists base t.bucketCnt := ⟨i, hi, rfl⟩
    have hhead : m'.next (headOf (bucketAt base i)) = first (bucketAt base i) (t.buckets i) := by
      rw [(hsame _ ?_).1]
      · rw [← bucketSeq_bucketAt base i t.buckets]
        exact (Holds.adj h hl (show bucketSeq base t.buckets (bucketAt base i) = [] ++ _ from rfl)).1
      · refine mem_append_left _ (mem_map.2 ⟨i, mem_range.2 hi, rfl⟩)
    have hbegin := listBegin_run (Holds.list_ne h hl) m'
    rw [hhead] at hbegin
    rw [elemsFrom_cons hi] at helems hsame ⊢
    rw [applyBuckets, run_bind_ok hbegin, forM_append]
    refine applyLoop_run h haction hi (show t.buckets i = [] ++ t.buckets i from rfl) helems ?_ hsame fun m'' hsame' => ?_
    · rw [helems, length_append, length_append] at hfuel
      omega
    · exact ih (by omega) (show t.elems = visited ++ t.buckets i ++ t.elemsFrom (i + 1) by rw [helems, append_assoc]) hsame'

theorem not_mem_heads (h : Stored m base t) {e : ℕ} (he : e ∈ t.elems) : e ∉ heads t base := by
  intro hmem
  obtain ⟨i, hi, rfl⟩ := mem_map.1 hmem
  obtain ⟨j, hj, hej⟩ := Table.mem_elems.1 he
  rw [← bucketSeq_bucketAt base j t.buckets] at hej
  have hli : bucketAt base i ∈ bucketLists base t.bucketCnt := ⟨i, mem_range.1 hi, rfl⟩
  have hlj : bucketAt base j ∈ bucketLists base t.bucketCnt := ⟨j, hj, rfl⟩
  by_cases hij : bucketAt base j = bucketAt base i
  · rw [hij] at hej
    exact Holds.head_not_mem h hli hej
  · exact Holds.apart h hlj hli hij (mem_nodes.2 (.inr (.inl hej))) (mem_nodes.2 (.inl rfl))

theorem spares_overwrite (hwf : t.Wf K) (h : Stored m base t) (v w : ℕ → ℕ) :
    Spares (fun e => modify fun m => (m.setNext e (v e)).setPrev e (w e)) t base := by
  intro visited e rest helems m m' hrun x hx
  obtain ⟨-, rfl⟩ := ok_inj hrun
  have hnodup := elems_nodup hwf
  have hne : x ≠ e := by
    rintro rfl
    rcases mem_append.1 hx with hx | hx
    · exact not_mem_heads h (by simp [helems]) hx
    · rw [helems] at hnodup
      exact (nodup_cons.1 (nodup_append'.1 hnodup).2.1).1 hx
  simp [hne]

/-- **Iteration.**  `hash_first` and `hash_next` give every element once, and then the null pointer; `hash_apply` is the action on every
element once, whatever it does to its element. -/
theorem iterates (hwf : t.Wf K) (h : Stored m base t) (hfuel : t.bucketCnt + t.elems.length < fuel) : t.elems.Nodup ∧
    (iterate base t.bucketCnt fuel).run m = .ok (t.elems, m) ∧
      ∀ action, Spares action t base → (hashApply action base t.bucketCnt fuel).run m = (forM t.elems action).run m := by
  have hpos : 0 < t.bucketCnt := by
    obtain ⟨k, -, hk⟩ := hwf.bucketCnt_eq
    rw [hk]
    exact Nat.two_pow_pos k
  refine ⟨elems_nodup hwf, ?_, fun action haction => ?_⟩
  · obtain ⟨it, hfirst, hit⟩ := first_run h hpos
    unfold iterate
    rw [run_bind_ok hfirst]
    exact nextLoop_run h hit (by omega) (by omega)
  · unfold hashApply
    rw [← elemsFrom_zero t]
    exact applyBuckets_run h haction (Nat.zero_add _) (show t.elems = [] ++ t.elemsFrom 0 by rw [elemsFrom_zero]; rfl) (by omega)
      (Links.SameOn.refl _ m)

/-- Four buckets, two of them empty. -/
def threeElems : Table ℕ := ⟨3, 4, fun i => if i = 0 then [200, 204] else if i = 3 then [203] else [], fun _ => true⟩

theorem exists_stored : ∃ m, Stored m 16 threeElems := by
  refine ⟨⟨fun x => if x = 24 then 204 else if x = 204 then 200 else if x = 200 then 16 else if x = 40 then 32 else if x = 56 then 48
    else if x = 72 then 203 else if x = 203 then 64 else 0, fun x => if x = 16 then 200 else if x = 200 then 204 else if x = 204 then 24
    else if x = 32 then 40 else if x = 48 then 56 else if x = 64 then 203 else if x = 203 then 72 else 0⟩, ?_⟩
  refine ⟨?_, ?_, ?_, ?_, ?_, ?_⟩
  · rintro l ⟨i, hi, rfl⟩
    rw [bucketSeq_bucketAt]
    change i < 4 at hi
    interval_cases i <;> simp [Links.Chain, Links.Adj, nodes, threeElems, headOf, tailOf, bucketAt]
  · rintro l ⟨i, hi, rfl⟩
    change i < 4 at hi
    interval_cases i <;> rfl
  · rintro l ⟨i, hi, rfl⟩
    change i < 4 at hi
    interval_cases i <;> rfl
  · rintro l ⟨i, hi, rfl⟩
    rw [bucketSeq_bucketAt]
    change i < 4 at hi
    interval_cases i <;> simp [nodes, threeElems, headOf, tailOf, bucketAt]
  · rintro l ⟨i, hi, rfl⟩
    rw [bucketSeq_bucketAt]
    change i < 4 at hi
    interval_cases i <;> simp [nodes, threeElems, headOf, tailOf, bucketAt]
  · rintro l l' ⟨i, hi, rfl⟩ ⟨j, hj, rfl⟩ hne
    rw [bucketSeq_bucketAt, bucketSeq_bucketAt]
    change i < 4 at hi
    change j < 4 at hj
    interval_cases i <;> interval_cases j <;> simp [nodes, threeElems, headOf, tailOf, bucketAt] at hne ⊢

/-- An action that overwrites its elements. -/
theorem iterates_three : ∃ m, Stored m 16 threeElems ∧ (iterate 16 4 8).run m = .ok ([200, 204, 203], m) ∧
    (hashApply (fun e => modify fun m => (m.setNext e 0).setPrev e 0) 16 4 8).run m =
      (forM [200, 204, 203] fun e => modify fun m => (m.setNext e 0).setPrev e 0 : ListM Unit).run m := by
  obtain ⟨m, h⟩ := exists_stored
  have hwf : threeElems.Wf natKeys := by
    refine ⟨⟨2, le_rfl, rfl⟩, ?_, rfl, by decide⟩
    decide
  obtain ⟨-, hiterate, happly⟩ := iterates hwf h (show _ < 8 by decide)
  exact ⟨m, h, hiterate, happly _ (spares_overwrite hwf h _ _)⟩

end Pintos.Hash
