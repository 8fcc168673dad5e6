/-
  Doubly linked lists (lib/kernel/list.c).

  A list is two elements of its own, the head and the tail, with the elements of the list between them.  The
  state is the links of all elements; elements are addresses, 0 is the null pointer.
-/
import Pintos.Lib.Links
import Pintos.Lib.Prog

namespace Pintos.LinkedList

open Lib

inductive Fault where
  | assertion
  /-- a null pointer is followed -/
  | null
  /-- a loop takes more turns than it may -/
  | bound
  deriving DecidableEq, Repr

abbrev ListM := Prog (Links ℕ) Fault

def assert (P : Prop) [Decidable P] : ListM Unit := if P then pure () else throw .assertion

/-- `elem->prev`. -/
def readPrev (elem : ℕ) : ListM ℕ := do
  let m ← get
  if elem = 0 then throw .null else pure (m.prev elem)

/-- `elem->next`. -/
def readNext (elem : ℕ) : ListM ℕ := do
  let m ← get
  if elem = 0 then throw .null else pure (m.next elem)

/-- `elem->prev = v`. -/
def writePrev (elem v : ℕ) : ListM Unit := if elem = 0 then throw .null else modify fun m => m.setPrev elem v

/-- `elem->next = v`. -/
def writeNext (elem v : ℕ) : ListM Unit := if elem = 0 then throw .null else modify fun m => m.setNext elem v

/-- `&list->head`. -/
def headOf (list : ℕ) : ℕ := list

/-- `&list->tail`; an element has two pointers of four bytes. -/
def tailOf (list : ℕ) : ℕ := list + 8

/-! ## Traversal -/

def isHead (m : Links ℕ) (elem : ℕ) : Bool := elem != 0 && m.prev elem == 0 && m.next elem != 0

def isInterior (m : Links ℕ) (elem : ℕ) : Bool := elem != 0 && m.prev elem != 0 && m.next elem != 0

def isTail (m : Links ℕ) (elem : ℕ) : Bool := elem != 0 && m.prev elem != 0 && m.next elem == 0

def listInit (list : ℕ) : ListM Unit := do
  assert (list ≠ 0)
  writePrev (headOf list) 0
  writeNext (headOf list) (tailOf list)
  writePrev (tailOf list) (headOf list)
  writeNext (tailOf list) 0

def listBegin (list : ℕ) : ListM ℕ := do
  assert (list ≠ 0)
  readNext (headOf list)

def listNext (elem : ℕ) : ListM ℕ := do
  let m ← get
  assert (isHead m elem ∨ isInterior m elem)
  readNext elem

def listEnd (list : ℕ) : ListM ℕ := do
  assert (list ≠ 0)
  pure (tailOf list)

def listPrev (elem : ℕ) : ListM ℕ := do
  let m ← get
  assert (isInterior m elem ∨ isTail m elem)
  readPrev elem

def listHead (list : ℕ) : ListM ℕ := do
  assert (list ≠ 0)
  pure (headOf list)

def listEmpty (list : ℕ) : ListM Bool := do
  let b ← listBegin list
  let e ← listEnd list
  pure (b == e)

/-! ## Insertion and removal -/

def listInsert (before elem : ℕ) : ListM Unit := do
  let m ← get
  assert (isInterior m before ∨ isTail m before)
  assert (elem ≠ 0)
  writePrev elem (← readPrev before)
  writeNext elem before
  writeNext (← readPrev before) elem
  writePrev before elem

/-- The end of `list_splice`, where `last` is the last element that is moved. -/
def spliceLinks (before first last : ℕ) : ListM Unit := do
  writeNext (← readPrev first) (← readNext last)
  writePrev (← readNext last) (← readPrev first)
  writePrev first (← readPrev before)
  writeNext last before
  writeNext (← readPrev before) first
  writePrev before last

def listSplice (before first last : ℕ) : ListM Unit := do
  let m ← get
  assert (isInterior m before ∨ isTail m before)
  if first = last then pure ()
  else do
    let last ← listPrev last
    assert (isInterior m first)
    assert (isInterior m last)
    spliceLinks before first last

def listPushFront (list elem : ℕ) : ListM Unit := do
  listInsert (← listBegin list) elem

def listPushBack (list elem : ℕ) : ListM Unit := do
  listInsert (← listEnd list) elem

def listRemove (elem : ℕ) : ListM ℕ := do
  let m ← get
  assert (isInterior m elem)
  writeNext (← readPrev elem) (← readNext elem)
  writePrev (← readNext elem) (← readPrev elem)
  readNext elem

def listFront (list : ℕ) : ListM ℕ := do
  let empty ← listEmpty list
  assert (empty = false)
  readNext (headOf list)

def listBack (list : ℕ) : ListM ℕ := do
  let empty ← listEmpty list
  assert (empty = false)
  readPrev (tailOf list)

def listPopFront (list : ℕ) : ListM ℕ := do
  let front ← listFront list
  let _ ← listRemove front
  pure front

def listPopBack (list : ℕ) : ListM ℕ := do
  let back ← listBack list
  let _ ← listRemove back
  pure back

/-- `swap (&e->prev, &e->next)`. -/
def swapLinks (e : ℕ) : ListM Unit := do
  let t ← readPrev e
  writePrev e (← readNext e)
  writeNext e t

/-- The loop of `list_reverse`, from `e` on. -/
def reverseLoop (end_ : ℕ) : ℕ → ℕ → ListM Unit
  | 0, e => if e ≠ end_ then throw .bound else pure ()
  | fuel + 1, e =>
    if e ≠ end_ then do
      swapLinks e
      reverseLoop end_ fuel (← readPrev e)
    else pure ()

/-- `swap (&list->head.next, &list->tail.prev)`. -/
def swapEnds (list : ℕ) : ListM Unit := do
  let t ← readNext (headOf list)
  writeNext (headOf list) (← readPrev (tailOf list))
  writePrev (tailOf list) t

/-- `swap (&list->head.next->prev, &list->tail.prev->next)`. -/
def swapInner (list : ℕ) : ListM Unit := do
  let front ← readNext (headOf list)
  let back ← readPrev (tailOf list)
  let t ← readPrev front
  writePrev front (← readNext back)
  writeNext back t

def listReverse (fuel list : ℕ) : ListM Unit := do
  let empty ← listEmpty list
  if empty then pure ()
  else do
    reverseLoop (tailOf list) fuel (← listBegin list)
    swapEnds list
    swapInner list

/-! ## Order -/

section
variable (fuel : ℕ) (less : ℕ → ℕ → Bool)

/-- The loop of `is_sorted`. -/
def isSortedLoop (b : ℕ) : ℕ → ℕ → ListM Bool
  | 0, _ => throw .bound
  | fuel + 1, a => do
    let a ← listNext a
    if a ≠ b then do
      let prev ← listPrev a
      if less a prev then pure false else isSortedLoop b fuel a
    else pure true

def isSorted (a b : ℕ) : ListM Bool := if a ≠ b then isSortedLoop less b fuel a else pure true

/-- The loop of `find_end_of_run`. -/
def runLoop (b : ℕ) : ℕ → ℕ → ListM ℕ
  | 0, _ => throw .bound
  | fuel + 1, a => do
    let a ← listNext a
    if a ≠ b then do
      let prev ← listPrev a
      if less a prev then pure a else runLoop b fuel a
    else pure a

def findEndOfRun (a b : ℕ) : ListM ℕ := do
  assert (a ≠ 0)
  assert (b ≠ 0)
  assert (a ≠ b)
  runLoop less b fuel a

/-- The loop of `inplace_merge`. -/
def mergeLoop (b1 : ℕ) : ℕ → ℕ → ℕ → ListM Unit
  | 0, a0, a1b0 => if a0 ≠ a1b0 ∧ a1b0 ≠ b1 then throw .bound else pure ()
  | fuel + 1, a0, a1b0 =>
    if a0 ≠ a1b0 ∧ a1b0 ≠ b1 then
      if !less a1b0 a0 then do
        mergeLoop b1 fuel (← listNext a0) a1b0
      else do
        let a1b0 ← listNext a1b0
        listSplice a0 (← listPrev a1b0) a1b0
        mergeLoop b1 fuel a0 a1b0
    else pure ()

def inplaceMerge (a0 a1b0 b1 : ℕ) : ListM Unit := do
  assert (a0 ≠ 0)
  assert (a1b0 ≠ 0)
  assert (b1 ≠ 0)
  let sorted ← isSorted fuel less a0 a1b0
  assert (sorted = true)
  let sorted ← isSorted fuel less a1b0 b1
  assert (sorted = true)
  mergeLoop less b1 fuel a0 a1b0

/-- A pass of `list_sort` over the list, from `a0` on: `output_run_cnt` at its end. -/
def passLoop (list : ℕ) : ℕ → ℕ → ℕ → ListM ℕ
  | 0, a0, outputRunCnt => if a0 ≠ tailOf list then throw .bound else pure outputRunCnt
  | turns + 1, a0, outputRunCnt =>
    if a0 ≠ tailOf list then do
      let a1b0 ← findEndOfRun fuel less a0 (tailOf list)
      if a1b0 = tailOf list then pure (outputRunCnt + 1)
      else do
        let b1 ← findEndOfRun fuel less a1b0 (tailOf list)
        inplaceMerge fuel less a0 a1b0 b1
        passLoop list turns b1 (outputRunCnt + 1)
    else pure outputRunCnt

/-- The passes of `list_sort`. -/
def sortLoop (list : ℕ) : ℕ → ListM Unit
  | 0 => throw .bound
  | turns + 1 => do
    let outputRunCnt ← passLoop fuel less list fuel (← listBegin list) 0
    if outputRunCnt > 1 then sortLoop list turns else pure ()

def listSort (list : ℕ) : ListM Unit := do
  assert (list ≠ 0)
  sortLoop fuel less list fuel
  let sorted ← isSorted fuel less (← listBegin list) (← listEnd list)
  assert (sorted = true)

/-- The loop of `list_insert_ordered`: where `elem` belongs. -/
def orderedLoop (end_ elem : ℕ) : ℕ → ℕ → ListM ℕ
  | 0, e => if e ≠ end_ then throw .bound else pure e
  | fuel + 1, e =>
    if e ≠ end_ then
      if less elem e then pure e
      else do orderedLoop end_ elem fuel (← listNext e)
    else pure e

def listInsertOrdered (list elem : ℕ) : ListM Unit := do
  assert (list ≠ 0)
  assert (elem ≠ 0)
  let e ← orderedLoop less (tailOf list) elem fuel (← listBegin list)
  listInsert e elem

/-- An element that was removed is put at the end of `duplicates`, unless that is null. -/
def pushDuplicate (duplicates elem : ℕ) : ListM Unit := if duplicates ≠ 0 then listPushBack duplicates elem else pure ()

/-- The loop of `list_unique`. -/
def uniqueLoop (list duplicates : ℕ) : ℕ → ℕ → ListM Unit
  | 0, _ => throw .bound
  | fuel + 1, elem => do
    let next ← listNext elem
    if next ≠ tailOf list then
      if !less elem next && !less next elem then do
        let _ ← listRemove next
        pushDuplicate duplicates next
        uniqueLoop list duplicates fuel elem
      else uniqueLoop list duplicates fuel next
    else pure ()

/-- `list_unique`; `duplicates` may be null. -/
def listUnique (list duplicates : ℕ) : ListM Unit := do
  assert (list ≠ 0)
  let empty ← listEmpty list
  if empty then pure ()
  else do uniqueLoop less list duplicates fuel (← listBegin list)

end

end Pintos.LinkedList
