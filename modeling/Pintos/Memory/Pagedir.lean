/-
  Page directories in memory (userprog/pagedir.c, threads/pte.h, and `paging_init` in threads/init.c).

  Memory is an array of bytes at kernel virtual addresses.  A page directory is a page of 1024 words,
  whose entries point to page tables, other such pages.  Pages come from the page allocator, of which
  only this is known: a page that it returns is not in use (`Pager`, see Palloc.lean).  The pages taken
  and freed are recorded.  The functions fail where an assertion of the source does.
-/
import Pintos.Lib.Bits
import Pintos.Lib.Bytes
import Pintos.Lib.Prog
import Pintos.UserMemory

namespace Pintos.Paging

open Lib

/-- The kernel address of a page. -/
structure IsPage (p : ℕ) : Prop where
  aligned : p % 4096 = 0
  le : physBase ≤ p
  lt : p < 2 ^ 32

/-- What the page allocator answers to its `n`-th call, for the user or the kernel pool, when the given
    pages are in use: no page, or one that is not in use. -/
structure Pager where
  page : ℕ → Bool → List ℕ → Option ℕ
  fresh : ∀ {n user used p}, page n user used = some p → p ∉ used ∧ IsPage p

inductive Fault where
  | assertion
  /-- `palloc_free_page` of a page that is not in use, or `PAL_ASSERT` without a free page -/
  | palloc
  deriving DecidableEq, Repr

structure State where
  mem : ℕ → UInt8
  pager : Pager
  /-- the number of calls of `palloc_get_page` -/
  calls : ℕ
  used : List ℕ
  /-- the pages that were returned and freed, the last one first -/
  taken : List ℕ
  freed : List ℕ
  initPageDir : ℕ
  initRamPages : ℕ

namespace State

def withMem (s : State) (mem : ℕ → UInt8) : State := { s with mem }

/-- One more call of the allocator. -/
def called (s : State) : State := { s with calls := s.calls + 1 }

def take (s : State) (p : ℕ) : State := { s with used := p :: s.used, taken := p :: s.taken }

def free (s : State) (p : ℕ) : State := { s with used := s.used.erase p, freed := p :: s.freed }

end State

abbrev PgM := Prog State Fault

def assert (p : Prop) [Decidable p] : PgM Unit := if p then pure () else throw .assertion

/-- The word at an address. -/
def readWord (a : ℕ) : PgM ℕ := do
  let s ← get
  pure (getWord s.mem a)

def writeWord (a v : ℕ) : PgM Unit := modify fun s => s.withMem (putWord s.mem a v)

/-- `memset` and `memcpy`, of a list of bytes. -/
def writeBytes (a : ℕ) (l : List UInt8) : PgM Unit := modify fun s => s.withMem (store s.mem a l)

def pallocGetPage (user zero : Bool) : PgM (Option ℕ) := do
  let s ← get
  match s.pager.page s.calls user s.used with
  | none => do
    set s.called
    pure none
  | some p => do
    set (s.called.take p)
    if zero then do
      writeBytes p (List.replicate 4096 0)
      pure (some p)
    else pure (some p)

def pallocFreePage (p : ℕ) : PgM Unit := do
  let s ← get
  if p = 0 then pure ()
  else if p ∈ s.used then do
    writeBytes p (List.replicate 4096 0xcc)
    modify fun s => s.free p
  else throw .palloc

/-! ## Entries -/

def vtop (vaddr : ℕ) : PgM ℕ := do
  assert (physBase ≤ vaddr)
  pure (vaddr - physBase)

def ptov (paddr : ℕ) : PgM ℕ := do
  assert (paddr < physBase)
  pure (addr (paddr + physBase))

/-- `pde_create`: `PTE_U`, `PTE_P` and `PTE_W`. -/
def pdeCreate (pt : ℕ) : PgM ℕ := do
  assert (pgOfs pt = 0)
  let paddr ← vtop pt
  pure (paddr ||| 0x4 ||| 0x1 ||| 0x2)

def pdeGetPt (pde : ℕ) : PgM ℕ := do
  assert (pde &&& 0x1 ≠ 0)
  ptov (pde &&& 0xfffff000)

def pteCreateKernel (page : ℕ) (writable : Bool) : PgM ℕ := do
  assert (pgOfs page = 0)
  let paddr ← vtop page
  pure (paddr ||| 0x1 ||| if writable then 0x2 else 0)

def pteCreateUser (page : ℕ) (writable : Bool) : PgM ℕ := do
  let pte ← pteCreateKernel page writable
  pure (pte ||| 0x4)

def pteGetPage (pte : ℕ) : PgM ℕ := ptov (pte &&& 0xfffff000)

/-! ## Page directories -/

/-- `pt = pde_get_pt (*pde); return &pt[pt_no (vaddr)]`. -/
def entryOf (pd vaddr : ℕ) : PgM (Option ℕ) := do
  let pde ← readWord (pd + 4 * pdNo vaddr)
  let pt ← pdeGetPt pde
  pure (some (pt + 4 * ptNo vaddr))

/-- The part of `lookup_page` that makes a page table. -/
def createTable (pd vaddr : ℕ) : PgM (Option ℕ) := do
  let pt ← pallocGetPage false true
  match pt with
  | none => pure none
  | some pt => do
    let pde ← pdeCreate pt
    writeWord (pd + 4 * pdNo vaddr) pde
    entryOf pd vaddr

/-- `lookup_page`: the address of the entry. -/
def lookupPage (pd vaddr : ℕ) (create : Bool) : PgM (Option ℕ) := do
  assert (pd ≠ 0)
  assert (create = true → vaddr < physBase)
  let pde ← readWord (pd + 4 * pdNo vaddr)
  if pde = 0 then if create then createTable pd vaddr else pure none
  else entryOf pd vaddr

def pagedirCreate : PgM (Option ℕ) := do
  let pd ← pallocGetPage false false
  match pd with
  | none => pure none
  | some pd => do
    let s ← get
    writeBytes pd (slice s.mem s.initPageDir 4096)
    pure (some pd)

/-- The assertions of `pagedir_set_page`. -/
def checkSetPage (pd upage kpage : ℕ) : PgM Unit := do
  assert (pgOfs upage = 0)
  assert (pgOfs kpage = 0)
  assert (upage < physBase)
  let paddr ← vtop kpage
  let s ← get
  assert (paddr / 2 ^ 12 < s.initRamPages)
  assert (pd ≠ s.initPageDir)

def pagedirSetPage (pd upage kpage : ℕ) (writable : Bool) : PgM Bool := do
  checkSetPage pd upage kpage
  let pte ← lookupPage pd upage true
  match pte with
  | some pte => do
    let old ← readWord pte
    assert (old &&& 0x1 = 0)
    let new ← pteCreateUser kpage writable
    writeWord pte new
    pure true
  | none => pure false

def pagedirGetPage (pd uaddr : ℕ) : PgM (Option ℕ) := do
  assert (uaddr < physBase)
  let pte ← lookupPage pd uaddr false
  match pte with
  | some pte => do
    let pte ← readWord pte
    if pte &&& 0x1 ≠ 0 then do
      let page ← pteGetPage pte
      pure (some (page + pgOfs uaddr))
    else pure none
  | none => pure none

/-- `pagedir_clear_page`; the translation lookaside buffer is not modelled. -/
def pagedirClearPage (pd upage : ℕ) : PgM Unit := do
  assert (pgOfs upage = 0)
  assert (upage < physBase)
  let pte ← lookupPage pd upage false
  match pte with
  | some pte => do
    let old ← readWord pte
    if old &&& 0x1 ≠ 0 then writeWord pte (old &&& 0xfffffffe) else pure ()
  | none => pure ()

/-- `pagedir_set_dirty` and `pagedir_set_accessed`: a bit of the entry is set or cleared. -/
def setFlag (flag mask pd vpage : ℕ) (value : Bool) : PgM Unit := do
  let pte ← lookupPage pd vpage false
  match pte with
  | some pte => do
    let old ← readWord pte
    writeWord pte (if value then old ||| flag else old &&& mask)
  | none => pure ()

/-- `pagedir_set_dirty`: `PTE_D`. -/
def pagedirSetDirty (pd vpage : ℕ) (dirty : Bool) : PgM Unit := setFlag 0x40 0xffffffbf pd vpage dirty

/-- `pagedir_set_accessed`: `PTE_A`. -/
def pagedirSetAccessed (pd vpage : ℕ) (accessed : Bool) : PgM Unit := setFlag 0x20 0xffffffdf pd vpage accessed

/-- `pagedir_is_dirty` and `pagedir_is_accessed`: a bit of the entry. -/
def isFlag (flag pd vpage : ℕ) : PgM Bool := do
  let pte ← lookupPage pd vpage false
  match pte with
  | some pte => do
    let pte ← readWord pte
    pure (pte &&& flag != 0)
  | none => pure false

def pagedirIsDirty (pd vpage : ℕ) : PgM Bool := isFlag 0x40 pd vpage

def pagedirIsAccessed (pd vpage : ℕ) : PgM Bool := isFlag 0x20 pd vpage

/-- The inner loop of `pagedir_destroy`, over the entries of a page table, with `n` turns left. -/
def destroyTable (pt : ℕ) : ℕ → ℕ → PgM Unit
  | 0, _ => pure ()
  | n + 1, j => do
    let pte ← readWord (pt + 4 * j)
    if pte &&& 0x1 ≠ 0 then do
      let page ← pteGetPage pte
      pallocFreePage page
      destroyTable pt n (j + 1)
    else destroyTable pt n (j + 1)

/-- The outer loop of `pagedir_destroy`, over the entries of the page directory. -/
def destroyTables (pd : ℕ) : ℕ → ℕ → PgM Unit
  | 0, _ => pure ()
  | n + 1, i => do
    let pde ← readWord (pd + 4 * i)
    if pde &&& 0x1 ≠ 0 then do
      let pt ← pdeGetPt pde
      destroyTable pt 1024 0
      pallocFreePage pt
      destroyTables pd n (i + 1)
    else destroyTables pd n (i + 1)

def pagedirDestroy (pd : ℕ) : PgM Unit :=
  if pd = 0 then pure ()
  else do
    let s ← get
    assert (pd ≠ s.initPageDir)
    destroyTables pd (pdNo physBase) 0
    pallocFreePage pd

/-! ## The kernel's page directory -/

/-- `palloc_get_page (PAL_ASSERT | PAL_ZERO)`. -/
def pallocGetZeroed : PgM ℕ := do
  let p ← pallocGetPage false true
  match p with
  | some p => pure p
  | none => throw .palloc

/-- `pt`, or a new page table, when the entry of the page directory is zero. -/
def pagingTable (pd pdeIdx pt : ℕ) : PgM ℕ := do
  let pde ← readWord (pd + 4 * pdeIdx)
  if pde = 0 then do
    let pt ← pallocGetZeroed
    let pde ← pdeCreate pt
    writeWord (pd + 4 * pdeIdx) pde
    pure pt
  else pure pt

/-- The loop of `paging_init`, with `n` turns left; the kernel text is from `start` to `end_`. -/
def pagingLoop (start end_ pd : ℕ) : ℕ → ℕ → ℕ → PgM Unit
  | 0, _, _ => pure ()
  | n + 1, page, pt => do
    let vaddr ← ptov (page * 4096 % 2 ^ 32)
    let pt ← pagingTable pd (pdNo vaddr) pt
    let pte ← pteCreateKernel vaddr (!(start ≤ vaddr && vaddr < end_))
    writeWord (pt + 4 * ptNo vaddr) pte
    pagingLoop start end_ pd n (page + 1) pt

def pagingInit (start end_ : ℕ) : PgM Unit := do
  let pd ← pallocGetZeroed
  modify fun s => { s with initPageDir := pd }
  let s ← get
  pagingLoop start end_ pd s.initRamPages 0 0

end Pintos.Paging
