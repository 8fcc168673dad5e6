/-
  Blocks of memory (threads/malloc.c).

  An address is a number and a page the number of its first address divided by `PGSIZE`.  Headers of arenas
  are found by the page they begin; a page without one has another `magic`.  The block of a size class is on
  the list of its descriptor while it is free.
-/
import Pintos.Lib.Steps
import Mathlib.Tactic

namespace Pintos.Malloc

open Lib Function

/-- `PGSIZE`. -/
def pgsize : ℕ := 4096

/-- `sizeof (struct arena)`. -/
def arenaSize : ℕ := 12

/-- The constant part of `struct desc`. -/
structure Desc where
  blockSize : ℕ
  blocksPerArena : ℕ
  deriving DecidableEq

/-- The loop of `malloc_init`; the array `descs` has room for `n` more descriptors. -/
def initLoop : ℕ → ℕ → List Desc
  | 0, _ => []
  | n + 1, size =>
    if size < pgsize / 2 then ⟨size, (pgsize - arenaSize) / size⟩ :: initLoop n (size * 2) else []

/-- `descs` after `malloc_init`. -/
def descs : List Desc := initLoop 10 16

/-- `struct desc *`. -/
abbrev DescPtr := Fin descs.length

def DescPtr.blockSize (d : DescPtr) : ℕ := (descs.get d).blockSize

def DescPtr.blocksPerArena (d : DescPtr) : ℕ := (descs.get d).blocksPerArena

/-- `struct arena`. -/
structure Arena where
  desc : Option DescPtr
  freeCnt : ℕ

/-- A block that is in use, and the size that was asked for. -/
structure Live where
  addr : ℕ
  requested : ℕ

structure Heap where
  arenas : ℕ → Option Arena
  freeList : DescPtr → List ℕ
  pages : List ℕ
  live : List Live
  failed : Bool

/-- The smallest descriptor that satisfies a request. -/
def findDesc (size : ℕ) : Option DescPtr := (List.finRange descs.length).find? fun d => size ≤ d.blockSize

/-- `DIV_ROUND_UP (size + sizeof *a, PGSIZE)`. -/
def pageCnt (size : ℕ) : ℕ := ((size + arenaSize) % 2 ^ 32 + pgsize - 1) % 2 ^ 32 / pgsize

/-- The address that `arena_to_block` returns. -/
def arenaToBlock (p : ℕ) (d : DescPtr) (i : ℕ) : ℕ := p * pgsize + arenaSize + i * d.blockSize

namespace Heap

/-- After `malloc_init`. -/
def init : Heap where
  arenas _ := none
  freeList _ := []
  pages := []
  live := []
  failed := false

def assert (s : Heap) (q : Prop) [Decidable q] : Heap := { s with failed := s.failed || decide (¬ q) }

def setArena (s : Heap) (p : ℕ) (a : Arena) : Heap := { s with arenas := update s.arenas p (some a) }

def setFree (s : Heap) (d : DescPtr) (l : List ℕ) : Heap := { s with freeList := update s.freeList d l }

/-- Whether the pages from `p` on may be the answer to a request. -/
def Available (s : Heap) (p cnt : ℕ) : Prop :=
  cnt ≠ 0 ∧ p ≠ 0 ∧ (p + cnt) * pgsize ≤ 2 ^ 32 ∧ ∀ i < cnt, p + i ∉ s.pages

instance (s : Heap) (p cnt : ℕ) : Decidable (s.Available p cnt) := inferInstanceAs (Decidable (_ ∧ _ ∧ _ ∧ _))

/-- `palloc_get_multiple (0, cnt)`. -/
def pallocGetMultiple (s : Heap) (cnt : ℕ) : Option ℕ → Option ℕ × Heap
  | none => (none, s)
  | some p =>
    if s.Available p cnt then (some p, { s with pages := (List.range cnt).map (p + ·) ++ s.pages }) else (none, s)

/-- `palloc_free_multiple`: the pages are overwritten. -/
def pallocFreeMultiple (s : Heap) (p cnt : ℕ) : Heap :=
  { s.assert (∀ i < cnt, p + i ∈ s.pages) with
    pages := s.pages.filter fun q => ¬ (p ≤ q ∧ q < p + cnt)
    arenas := fun q => if p ≤ q ∧ q < p + cnt then none else s.arenas q }

/-- `block_to_arena`: nothing where an assertion fails. -/
def blockToArena (s : Heap) (b : ℕ) : Option Arena :=
  match s.arenas (b / pgsize) with
  | none => none
  | some a =>
    if b / pgsize ≠ 0 ∧ (∀ d ∈ a.desc, (b % pgsize + 2 ^ 32 - arenaSize) % 2 ^ 32 % d.blockSize = 0) ∧
        (a.desc = none → b % pgsize = arenaSize) then some a
    else none

/-- The assertions of `arena_to_block`. -/
def arenaToBlockOk (s : Heap) (p i : ℕ) : Bool :=
  match s.arenas p with
  | some ⟨some d, _⟩ => i < d.blocksPerArena
  | _ => false

/-- One pass of the loop in `malloc` that adds the blocks of an arena. -/
def addBlock (p : ℕ) (d : DescPtr) (s : Heap) (i : ℕ) : Heap :=
  (s.assert (s.arenaToBlockOk p i)).setFree d (s.freeList d ++ [arenaToBlock p d i])

/-- The part of `malloc` that creates an arena. -/
def newArena (s : Heap) (d : DescPtr) (answer : Option ℕ) : Bool × Heap :=
  match s.pallocGetMultiple 1 answer with
  | (none, s) => (false, s)
  | (some p, s) =>
    (true, (List.range d.blocksPerArena).foldl (addBlock p d) (s.setArena p ⟨some d, d.blocksPerArena⟩))

/-- The block `b` is returned. -/
def give (s : Heap) (b requested : ℕ) : Heap := { s with live := ⟨b, requested⟩ :: s.live }

def take (s : Heap) (b : ℕ) : Heap := { s with live := s.live.filter fun l => l.addr ≠ b }

/-- The end of `malloc`: a block of the free list. -/
def popBlock (s : Heap) (d : DescPtr) (requested : ℕ) : Option ℕ × Heap :=
  match s.freeList d with
  | [] => (none, { s with failed := true })
  | b :: l =>
    match (s.setFree d l).blockToArena b with
    | none => (none, { s with failed := true })
    | some a =>
      (some b, ((s.setFree d l).setArena (b / pgsize) { a with freeCnt := (a.freeCnt + (2 ^ 32 - 1)) % 2 ^ 32 }).give b requested)

def malloc (s : Heap) (size : ℕ) (answer : Option ℕ) : Option ℕ × Heap :=
  if size = 0 then (none, s)
  else match findDesc size with
  | none =>
    match s.pallocGetMultiple (pageCnt size) answer with
    | (none, s) => (none, s)
    | (some p, s) =>
      (some (p * pgsize + arenaSize), (s.setArena p ⟨none, pageCnt size⟩).give (p * pgsize + arenaSize) size)
  | some d =>
    if s.freeList d = [] then
      match s.newArena d answer with
      | (false, s) => (none, s)
      | (true, s) => s.popBlock d size
    else s.popBlock d size

/-- The size that was asked for is the product. -/
def setRequested (s : Heap) (b requested : ℕ) : Heap :=
  { s with live := s.live.map fun l => if l.addr = b then ⟨b, requested⟩ else l }

def calloc (s : Heap) (a b : ℕ) (answer : Option ℕ) : Option ℕ × Heap :=
  let size := a * b % 2 ^ 32
  if size < a ∨ size < b then (none, s)
  else match s.malloc size answer with
  | (none, s) => (none, s)
  | (some p, s) => (some p, s.setRequested p (a * b))

def blockSize (s : Heap) (b : ℕ) : ℕ :=
  match s.arenas (b / pgsize) with
  | none => 0
  | some a => match a.desc with
    | some d => d.blockSize
    | none => pgsize * a.freeCnt - b % pgsize

/-- One pass of the loop in `free` that removes the blocks of an arena. -/
def removeBlock (p : ℕ) (d : DescPtr) (s : Heap) (i : ℕ) : Heap :=
  ((s.assert (s.arenaToBlockOk p i)).assert (arenaToBlock p d i ∈ s.freeList d)).setFree d
    ((s.freeList d).erase (arenaToBlock p d i))

def free (s : Heap) : Option ℕ → Heap
  | none => s
  | some b =>
    match s.blockToArena b with
    | none => { s with failed := true }
    | some a =>
      match a.desc with
      | some d =>
        let s := (s.take b).setFree d (b :: s.freeList d)
        let freeCnt := (a.freeCnt + 1) % 2 ^ 32
        let s := s.setArena (b / pgsize) { a with freeCnt }
        if d.blocksPerArena ≤ freeCnt then
          ((List.range d.blocksPerArena).foldl (removeBlock (b / pgsize) d)
            (s.assert (freeCnt = d.blocksPerArena))).pallocFreeMultiple (b / pgsize) 1
        else s
      | none => (s.take b).pallocFreeMultiple (b / pgsize) a.freeCnt

def realloc (s : Heap) (oldBlock : Option ℕ) (newSize : ℕ) (answer : Option ℕ) : Option ℕ × Heap :=
  if newSize = 0 then (none, s.free oldBlock)
  else match s.malloc newSize answer with
  | (none, s) => (none, s)
  | (some newBlock, s) =>
    match oldBlock with
    | none => (some newBlock, s)
    | some b => (some newBlock, (s.assert (s.blockToArena b).isSome).free (some b))

inductive Call where
  | malloc (size : ℕ) (answer : Option ℕ)
  | calloc (a b : ℕ) (answer : Option ℕ)
  | realloc (oldBlock : Option ℕ) (newSize : ℕ) (answer : Option ℕ)
  | free (p : Option ℕ)

def step (s : Heap) : Call → Option Heap
  | .malloc size answer => some (s.malloc size answer).2
  | .calloc a b answer => some (s.calloc a b answer).2
  | .realloc oldBlock newSize answer => some (s.realloc oldBlock newSize answer).2
  | .free p => some (s.free p)

/-- Sizes are below `2 ^ 31`, and only blocks in use are freed. -/
def CallOk (s : Heap) : Call → Prop
  | .malloc size _ => size < 2 ^ 31
  | .calloc a b _ => a * b < 2 ^ 31
  | .realloc oldBlock newSize _ => newSize < 2 ^ 31 ∧ ∀ b ∈ oldBlock, b ∈ s.live.map (·.addr)
  | .free p => ∀ b ∈ p, b ∈ s.live.map (·.addr)

instance (s : Heap) : ∀ c, Decidable (s.CallOk c)
  | .malloc size _ => inferInstanceAs (Decidable (size < 2 ^ 31))
  | .calloc a b _ => inferInstanceAs (Decidable (a * b < 2 ^ 31))
  | .realloc oldBlock newSize _ =>
    inferInstanceAs (Decidable (newSize < 2 ^ 31 ∧ ∀ b ∈ oldBlock, b ∈ s.live.map (·.addr)))
  | .free p => inferInstanceAs (Decidable (∀ b ∈ p, b ∈ s.live.map (·.addr)))

end Heap

def withBlock (live : List Live) (requested : ℕ) : Option ℕ → List Live
  | none => live
  | some b => ⟨b, requested⟩ :: live

def withoutBlock (live : List Live) : Option ℕ → List Live
  | none => live
  | some b => live.filter fun l => l.addr ≠ b

/-- A block that is not moved stays in use, unless the new size is 0. -/
def movedBlock (live : List Live) (oldBlock : Option ℕ) (newSize : ℕ) : Option ℕ → List Live
  | none => if newSize = 0 then withoutBlock live oldBlock else live
  | some p => ⟨p, newSize⟩ :: withoutBlock live oldBlock

/-- The blocks in use after a call, by what was given to it and what it returns. -/
def Heap.liveAfter (s : Heap) : Call → List Live
  | .malloc size answer => withBlock s.live size (s.malloc size answer).1
  | .calloc a b answer => withBlock s.live (a * b) (s.calloc a b answer).1
  | .realloc oldBlock newSize answer => movedBlock s.live oldBlock newSize (s.realloc oldBlock newSize answer).1
  | .free p => withoutBlock s.live p

/-- Byte ranges without a common byte. -/
def Apart (b n b' n' : ℕ) : Prop := b + n ≤ b' ∨ b' + n' ≤ b

structure HeapOk (s : Heap) : Prop where
  live_apart : s.live.Pairwise fun b b' => Apart b.addr (s.blockSize b.addr) b'.addr (s.blockSize b'.addr)
  live_large : ∀ b ∈ s.live, b.requested ≤ s.blockSize b.addr
  header_apart : ∀ b ∈ s.live, ∀ p, (s.arenas p).isSome → Apart b.addr (s.blockSize b.addr) (p * pgsize) arenaSize
  free_apart : ∀ b ∈ s.live, ∀ d, ∀ x ∈ s.freeList d, Apart b.addr (s.blockSize b.addr) x d.blockSize
  free_nodup : ∀ d, (s.freeList d).Nodup
  /-- a free block is one of the blocks of an arena of its descriptor -/
  free_class : ∀ d, ∀ x ∈ s.freeList d, ∃ p n i, s.arenas p = some ⟨some d, n⟩ ∧ i < d.blocksPerArena ∧ x = arenaToBlock p d i
  free_cnt : ∀ p d n, s.arenas p = some ⟨some d, n⟩ →
    n = (s.freeList d).countP (fun x => x / pgsize = p) ∧ n < d.blocksPerArena
  /-- the pages that were not given back are those of the blocks in use -/
  pages_nodup : s.pages.Nodup
  pages_iff : ∀ q, q ∈ s.pages ↔ ∃ b ∈ s.live, b.addr / pgsize ≤ q ∧ q * pgsize < b.addr + s.blockSize b.addr
  asserts : s.failed = false

end Pintos.Malloc
