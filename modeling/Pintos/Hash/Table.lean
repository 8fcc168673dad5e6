/-
  Hash tables (lib/kernel/hash.c).

  A table has a number of buckets, each a list of elements; the bucket of an element is given by the low
  bits of its hash value.
-/
import Pintos.Lib.Lists

namespace Pintos.Hash

open Lib Function List

/-- The functions `hash` and `less` of a table, `less` a strict weak order. -/
structure Keys (α : Type) where
  hash : α → ℕ
  less : α → α → Bool
  order : IsStrictWeakOrder α fun a b => less a b = true
  hash_eq : ∀ {a b}, less a b = false → less b a = false → hash a = hash b

/-- `struct hash`; `memory` answers the calls of `malloc` to come. -/
structure Table (α : Type) where
  elemCnt : ℕ
  bucketCnt : ℕ
  buckets : ℕ → List α
  memory : ℕ → Bool

variable {α : Type} (K : Keys α)

/-- The elements are equal for the table. -/
def Keys.same (a b : α) : Bool := !K.less a b && !K.less b a

/-- `find_bucket`: the index of the bucket. -/
def findBucket (bucketCnt : ℕ) (e : α) : ℕ := K.hash e &&& (bucketCnt - 1)

def findElem (bucket : List α) (e : α) : Option α := bucket.find? fun hi => K.same hi e

def turnOffLeast1bit (x : ℕ) : ℕ := x &&& (x - 1)

def isPowerOf2 (x : ℕ) : Bool := x != 0 && turnOffLeast1bit x == 0

/-- The loop in `rehash` over the new number of buckets. -/
def roundLoop : ℕ → ℕ → ℕ
  | 0, x => x
  | fuel + 1, x => if isPowerOf2 x then x else roundLoop fuel (turnOffLeast1bit x)

/-- The new number of buckets. -/
def newBucketCnt (elemCnt : ℕ) : ℕ :=
  let n := if elemCnt / 2 < 4 then 4 else elemCnt / 2
  roundLoop n n

/-- The elements of an old bucket are pushed to the front of their new buckets. -/
def moveLoop (bucketCnt : ℕ) : List α → (ℕ → List α) → ℕ → List α
  | [], b => b
  | e :: l, b => moveLoop bucketCnt l (update b (findBucket K bucketCnt e) (e :: b (findBucket K bucketCnt e)))

/-- The loop over the old buckets, with `n` turns left. -/
def moveBuckets (bucketCnt : ℕ) (old : ℕ → List α) : ℕ → ℕ → (ℕ → List α) → ℕ → List α
  | 0, _, b => b
  | n + 1, i, b => moveBuckets bucketCnt old n (i + 1) (moveLoop K bucketCnt (old i) b)

namespace Table

/-- The next call of `malloc` is made. -/
def called (t : Table α) : Table α := { t with memory := fun n => t.memory (n + 1) }

def rehash (t : Table α) : Table α :=
  let n := newBucketCnt t.elemCnt
  if n = t.bucketCnt then t
  else if t.memory 0 then
    { t.called with bucketCnt := n, buckets := moveBuckets K n t.buckets t.bucketCnt 0 fun _ => [] }
  else t.called

def insertElem (t : Table α) (bucket : ℕ) (e : α) : Table α :=
  { t with elemCnt := t.elemCnt + 1, buckets := update t.buckets bucket (e :: t.buckets bucket) }

def removeElem [DecidableEq α] (t : Table α) (e : α) : Table α :=
  { t with elemCnt := t.elemCnt - 1, buckets := fun i => (t.buckets i).erase e }

/-- `hash_insert`. -/
def insert (t : Table α) (new : α) : Option α × Table α :=
  let bucket := findBucket K t.bucketCnt new
  match findElem K (t.buckets bucket) new with
  | none => (none, (t.insertElem bucket new).rehash K)
  | some old => (some old, t.rehash K)

/-- `hash_replace`. -/
def replace [DecidableEq α] (t : Table α) (new : α) : Option α × Table α :=
  let bucket := findBucket K t.bucketCnt new
  match findElem K (t.buckets bucket) new with
  | none => (none, (t.insertElem bucket new).rehash K)
  | some old => (some old, ((t.removeElem old).insertElem bucket new).rehash K)

/-- `hash_find`. -/
def find (t : Table α) (e : α) : Option α := findElem K (t.buckets (findBucket K t.bucketCnt e)) e

/-- `hash_delete`. -/
def delete [DecidableEq α] (t : Table α) (e : α) : Option α × Table α :=
  match t.find K e with
  | none => (none, t)
  | some found => (some found, (t.removeElem found).rehash K)

/-- The loop of `hash_clear`, with `n` turns left; `destroyed` are the elements that the destructor was
    called for, if there is one. -/
def clearLoop (destructor : Bool) : ℕ → ℕ → List α → (ℕ → List α) → List α × (ℕ → List α)
  | 0, _, destroyed, b => (destroyed, b)
  | n + 1, i, destroyed, b =>
    clearLoop destructor n (i + 1) (if destructor then destroyed ++ b i else destroyed) (update b i [])

/-- `hash_clear`. -/
def clear (t : Table α) (destructor : Bool) : List α × Table α :=
  let r := clearLoop destructor t.bucketCnt 0 [] t.buckets
  (r.1, { t with elemCnt := 0, buckets := r.2 })

/-- `hash_init`; the new buckets may hold anything. -/
def init (junk : ℕ → List α) (memory : ℕ → Bool) : Option (Table α) :=
  if memory 0 then some (clear ⟨0, 4, junk, fun n => memory (n + 1)⟩ false).2 else none

end Table

/-! ## The number of buckets -/

section
variable {x k fuel : ℕ}

theorem turnOffLeast1bit_spec (hle : 2 ^ k ≤ x) (hlt : x < 2 ^ (k + 1)) (hne : x ≠ 2 ^ k) :
    2 ^ k ≤ turnOffLeast1bit x ∧ turnOffLeast1bit x < x := by
  have hbit : ∀ y, 2 ^ k ≤ y → y < 2 ^ (k + 1) → y.testBit k = true := fun y h1 h2 =>
    Nat.testBit_of_two_pow_le_and_two_pow_add_one_gt h1 h2
  unfold turnOffLeast1bit
  constructor
  · refine Nat.ge_two_pow_of_testBit ?_
    rw [Nat.testBit_and, hbit x hle hlt, hbit (x - 1) (by omega) (by omega)]
    rfl
  · have := Nat.and_le_right (n := x) (m := x - 1)
    omega

theorem isPowerOf2_iff (hle : 2 ^ k ≤ x) (hlt : x < 2 ^ (k + 1)) : isPowerOf2 x = true ↔ x = 2 ^ k := by
  unfold isPowerOf2
  rw [Bool.and_eq_true, bne_iff_ne, beq_iff_eq]
  constructor
  · rintro ⟨-, hzero⟩
    by_contra hne
    have := (turnOffLeast1bit_spec hle hlt hne).1
    omega
  · rintro rfl
    refine ⟨by omega, ?_⟩
    rw [turnOffLeast1bit, Nat.and_two_pow_sub_one_eq_mod, Nat.mod_self]

theorem roundLoop_eq : ∀ (fuel x : ℕ), x ≤ fuel → 2 ^ k ≤ x → x < 2 ^ (k + 1) → roundLoop fuel x = 2 ^ k
  | 0, x, hfuel, hle, _ => by
    omega
  | fuel + 1, x, hfuel, hle, hlt => by
    rw [roundLoop]
    split_ifs with hpow
    · exact (isPowerOf2_iff hle hlt).1 hpow
    · obtain ⟨hle', hlt'⟩ := turnOffLeast1bit_spec hle hlt fun heq => hpow ((isPowerOf2_iff hle hlt).2 heq)
      exact roundLoop_eq fuel _ (by omega) hle' (by omega)

theorem newBucketCnt_eq (elemCnt : ℕ) : ∃ k, 2 ≤ k ∧ newBucketCnt elemCnt = 2 ^ k := by
  unfold newBucketCnt
  generalize hn : (if elemCnt / 2 < 4 then 4 else elemCnt / 2) = n
  have hfour : 4 ≤ n := by
    rw [← hn]
    split_ifs <;> omega
  have hle := Nat.pow_log_le_self 2 (show n ≠ 0 by omega)
  have hlt := Nat.lt_pow_succ_log_self (b := 2) (by decide) n
  refine ⟨Nat.log 2 n, ?_, roundLoop_eq n n le_rfl hle hlt⟩
  exact Nat.le_log_of_pow_le (by decide) hfour

end

/-! ## Moving the elements -/

section
variable {K : Keys α} {t : Table α} {e x : α} {l : List α} {b old : ℕ → List α} {cnt i k : ℕ}

theorem findBucket_lt (hcnt : cnt = 2 ^ k) (e : α) : findBucket K cnt e < cnt := by
  rw [findBucket, hcnt, Nat.and_two_pow_sub_one_eq_mod]
  exact Nat.mod_lt _ (Nat.two_pow_pos k)

theorem moveLoop_perm (hcnt : cnt = 2 ^ k) : ∀ (l : List α) (b : ℕ → List α),
    ((List.range cnt).flatMap (moveLoop K cnt l b)).Perm (l ++ (List.range cnt).flatMap b)
  | [], _ => .refl _
  | e :: l, b => by
    refine (moveLoop_perm hcnt l _).trans ?_
    exact ((perm_flatMap_cons (findBucket_lt hcnt e) e).append_left l).trans perm_middle

theorem moveLoop_place : ∀ (l : List α) (b : ℕ → List α), (∀ i, ∀ x ∈ b i, findBucket K cnt x = i) →
    ∀ i, ∀ x ∈ moveLoop K cnt l b i, findBucket K cnt x = i
  | [], _, h => h
  | e :: l, b, h => by
    refine moveLoop_place l _ fun i x hx => ?_
    rw [update_apply] at hx
    split_ifs at hx with hi
    · rcases mem_cons.1 hx with rfl | hx
      · exact hi.symm
      · exact (h _ x hx).trans hi.symm
    · exact h i x hx

theorem moveBuckets_perm (hcnt : cnt = 2 ^ k) (old : ℕ → List α) : ∀ (n i : ℕ) (b : ℕ → List α),
    ((List.range cnt).flatMap (moveBuckets K cnt old n i b)).Perm
      (((List.range n).flatMap fun j => old (i + j)) ++ (List.range cnt).flatMap b)
  | 0, _, _ => .refl _
  | n + 1, i, b => by
    refine (moveBuckets_perm hcnt old n (i + 1) _).trans ?_
    rw [range_succ_eq_map, flatMap_cons, flatMap_map, append_assoc, Nat.add_zero]
    have hshift : (fun j => old (i + 1 + j)) = fun j => old (i + j.succ) := by
      funext j
      rw [Nat.add_assoc, Nat.add_comm 1 j]
    rw [hshift]
    refine ((moveLoop_perm hcnt (old i) b).append_left _).trans ?_
    rw [← append_assoc, ← append_assoc]
    exact perm_append_comm.append_right _

theorem moveBuckets_place (old : ℕ → List α) : ∀ (n i : ℕ) (b : ℕ → List α), (∀ i, ∀ x ∈ b i, findBucket K cnt x = i) →
    ∀ j, ∀ x ∈ moveBuckets K cnt old n i b j, findBucket K cnt x = j
  | 0, _, _, h => h
  | n + 1, i, b, h => moveBuckets_place old n (i + 1) _ (moveLoop_place (old i) b h)

end

/-! ## The invariant -/

namespace Keys
variable {K : Keys α} {a b c : α}

theorem same_iff : K.same a b = true ↔ K.less a b = false ∧ K.less b a = false := by
  rw [same, Bool.and_eq_true, Bool.not_eq_true', Bool.not_eq_true']

theorem same_refl (K : Keys α) (a : α) : K.same a a = true := by
  have := K.order
  have hirrefl : ¬ K.less a a = true := irrefl_of (fun a b => K.less a b = true) a
  rw [same_iff, Bool.not_eq_true] at *
  exact ⟨hirrefl, hirrefl⟩

theorem same_symm (h : K.same a b = true) : K.same b a = true := by
  rw [same_iff] at *
  exact h.symm

theorem not_same_symm (h : K.same a b = false) : K.same b a = false :=
  Bool.eq_false_iff.2 fun hba => absurd (same_symm hba) (by rw [h]; exact Bool.false_ne_true)

theorem same_trans (h1 : K.same a b = true) (h2 : K.same b c = true) : K.same a c = true := by
  rw [same_iff] at *
  have := K.order.incomp_trans a b c (by simpa using h1) (by simpa using h2)
  simpa using this

theorem findBucket_eq (h : K.same a b = true) (cnt : ℕ) : findBucket K cnt a = findBucket K cnt b := by
  obtain ⟨h1, h2⟩ := same_iff.1 h
  rw [findBucket, findBucket, K.hash_eq h1 h2]

end Keys

namespace Table

/-- The elements of a table. -/
def elems (t : Table α) : List α := (List.range t.bucketCnt).flatMap t.buckets

structure Wf (t : Table α) : Prop where
  bucketCnt_eq : ∃ k, 2 ≤ k ∧ t.bucketCnt = 2 ^ k
  place : ∀ i < t.bucketCnt, ∀ x ∈ t.buckets i, findBucket K t.bucketCnt x = i
  elemCnt_eq : t.elemCnt = t.elems.length
  distinct : t.elems.Pairwise fun a b => K.same a b = false

section
variable {K : Keys α} {t t' : Table α} {e x : α}

theorem mem_elems : x ∈ t.elems ↔ ∃ i < t.bucketCnt, x ∈ t.buckets i := mem_flatMap_range

/-- What makes the invariant hold on when the elements are the same. -/
theorem Wf.of_perm (h : Wf K t) (hpow : ∃ k, 2 ≤ k ∧ t'.bucketCnt = 2 ^ k) (hcnt : t'.elemCnt = t.elemCnt)
    (hplace : ∀ i < t'.bucketCnt, ∀ x ∈ t'.buckets i, findBucket K t'.bucketCnt x = i) (hperm : t'.elems.Perm t.elems) :
    Wf K t' := by
  refine ⟨hpow, hplace, by rw [hcnt, h.elemCnt_eq, hperm.length_eq], (hperm.pairwise_iff Keys.not_same_symm).2 h.distinct⟩

theorem rehash_elems (K : Keys α) (t : Table α) : (t.rehash K).elems.Perm t.elems := by
  obtain ⟨k, -, hk⟩ := newBucketCnt_eq t.elemCnt
  unfold rehash
  dsimp only
  split_ifs
  · exact .refl _
  · have hperm := moveBuckets_perm (K := K) hk t.buckets t.bucketCnt 0 fun _ => []
    have hempty : (range (newBucketCnt t.elemCnt)).flatMap (fun _ => ([] : List α)) = [] := flatMap_eq_nil_iff.2 fun _ _ => rfl
    rw [hempty, append_nil] at hperm
    simp only [Nat.zero_add] at hperm
    exact hperm
  · exact .refl _

section

variable (h : Wf K t)
include h

theorem Wf.rehash : Wf K (t.rehash K) := by
  have hperm := rehash_elems K t
  unfold Table.rehash at hperm ⊢
  dsimp only at hperm ⊢
  split_ifs at hperm ⊢
  · exact h
  · exact h.of_perm (newBucketCnt_eq _) rfl (fun i _ => moveBuckets_place t.buckets _ 0 _ (fun _ _ hx => absurd hx not_mem_nil) i) hperm
  · exact ⟨h.bucketCnt_eq, h.place, h.elemCnt_eq, h.distinct⟩

theorem Wf.bucket_lt (e : α) : findBucket K t.bucketCnt e < t.bucketCnt := by
  obtain ⟨k, -, hk⟩ := h.bucketCnt_eq
  exact findBucket_lt hk e

theorem insertElem_elems (e : α) :
    (t.insertElem (findBucket K t.bucketCnt e) e).elems.Perm (e :: t.elems) :=
  perm_flatMap_cons (h.bucket_lt e) e

theorem Wf.insertElem (hnew : ∀ x ∈ t.elems, K.same x e = false) :
    Wf K (t.insertElem (findBucket K t.bucketCnt e) e) := by
  have hperm := insertElem_elems h e
  refine ⟨h.bucketCnt_eq, fun i hi x hx => ?_, ?_, (hperm.pairwise_iff Keys.not_same_symm).2 ?_⟩
  · change x ∈ update t.buckets _ _ i at hx
    rw [update_apply] at hx
    split_ifs at hx with heq
    · rcases mem_cons.1 hx with rfl | hx
      · exact heq.symm
      · exact (h.place _ (h.bucket_lt e) x hx).trans heq.symm
    · exact h.place i hi x hx
  · rw [hperm.length_eq, length_cons, ← h.elemCnt_eq]
    rfl
  · exact pairwise_cons.2 ⟨fun x hx => Keys.not_same_symm (hnew x hx), h.distinct⟩

theorem Wf.mem_bucket (hx : x ∈ t.elems) : x ∈ t.buckets (findBucket K t.bucketCnt x) := by
  obtain ⟨i, hi, hx⟩ := mem_elems.1 hx
  rwa [h.place i hi x hx]

theorem Wf.eq_of_same (hx : x ∈ t.elems) (he : e ∈ t.elems) (hsame : K.same x e = true) : x = e := by
  by_contra hne
  have : Std.Symm fun a b => K.same a b = false := ⟨fun _ _ => Keys.not_same_symm⟩
  rw [h.distinct.forall hx he hne] at hsame
  cases hsame

theorem Wf.find_eq_some : t.find K e = some x ↔ x ∈ t.elems ∧ K.same x e = true := by
  unfold find findElem
  constructor
  · intro hfind
    exact ⟨mem_elems.2 ⟨_, h.bucket_lt e, mem_of_find?_eq_some hfind⟩, (find?_some hfind :)⟩
  · rintro ⟨hx, hsame⟩
    have hmem := h.mem_bucket hx
    rw [Keys.findBucket_eq hsame] at hmem
    cases hfind : (t.buckets (findBucket K t.bucketCnt e)).find? fun hi => K.same hi e with
    | none => exact absurd hsame (find?_eq_none.1 hfind x hmem)
    | some y =>
      have hy : K.same y e = true := (find?_some hfind :)
      have hy' : y ∈ t.elems := mem_elems.2 ⟨_, h.bucket_lt e, mem_of_find?_eq_some hfind⟩
      rw [h.eq_of_same hy' hx (Keys.same_trans hy (Keys.same_symm hsame))]

theorem Wf.find_eq_none : t.find K e = none ↔ ∀ x ∈ t.elems, K.same x e = false := by
  constructor
  · intro hnone x hx
    refine Bool.eq_false_iff.2 fun hsame => ?_
    rw [h.find_eq_some.2 ⟨hx, hsame⟩] at hnone
    cases hnone
  · intro hno
    cases hfind : t.find K e with
    | none => rfl
    | some x =>
      obtain ⟨hx, hsame⟩ := h.find_eq_some.1 hfind
      rw [hno x hx] at hsame
      cases hsame

end

variable [DecidableEq α]

theorem removeElem_elems (h : Wf K t) (he : e ∈ t.elems) : t.elems.Perm (e :: (t.removeElem e).elems) := by
  have hmem := h.mem_bucket he
  set i := findBucket K t.bucketCnt e
  -- the other buckets do not have the element
  have hbuckets : (t.removeElem e).elems = (range t.bucketCnt).flatMap (update t.buckets i ((t.buckets i).erase e)) := by
    refine flatMap_range_congr fun j hj => ?_
    rw [update_apply]
    split_ifs with hij
    · rw [hij]
      rfl
    · exact erase_of_not_mem fun hej => hij (h.place j hj e hej).symm
  have hperm := perm_flatMap_update (f := t.buckets) (l := (t.buckets i).erase e) (h.bucket_lt e)
  rw [← hbuckets] at hperm
  have hsplit : ((t.removeElem e).elems ++ t.buckets i).Perm (e :: (t.removeElem e).elems ++ (t.buckets i).erase e) :=
    ((perm_cons_erase hmem).append_left _).trans perm_middle
  exact (perm_append_right_iff _).1 (hperm.symm.trans hsplit)

theorem Wf.removeElem (h : Wf K t) (he : e ∈ t.elems) : Wf K (t.removeElem e) := by
  have hperm := removeElem_elems h he
  refine ⟨h.bucketCnt_eq, fun i hi x hx => h.place i hi x (mem_of_mem_erase hx), ?_, ?_⟩
  · have hlen := hperm.length_eq
    rw [length_cons, ← h.elemCnt_eq] at hlen
    change t.elemCnt - 1 = _
    omega
  · exact (pairwise_cons.1 ((hperm.pairwise_iff Keys.not_same_symm).1 h.distinct)).2

end

end Table

end Pintos.Hash
