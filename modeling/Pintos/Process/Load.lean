/-
  Loading a program (`load` with its helpers and `process_exit`, userprog/process.c).

  The state is the memory of the machine, the file system, and the fields `pagedir` and `executable_f` of
  the current thread.  A result of 32 bits that wraps around is a fault, as is an assertion that fails.
-/
import Pintos.Args.Stack
import Pintos.Lib.Total
import Pintos.Memory.Pagedir

namespace Pintos.Process

open Lib

/-- The machine, and the thread that runs. -/
structure Proc where
  pg : Paging.State
  fs : Fs
  /-- 0 is the null pointer -/
  pagedir : ℕ
  executableF : Option ℕ

inductive Fault where
  | paging (e : Paging.Fault)
  | fs (e : Panic)
  | assertion
  /-- an unsigned result does not fit in 32 bits, or is negative -/
  | wrap
  /-- a loop takes more turns than expected -/
  | bound
  deriving DecidableEq, Repr

abbrev LoadM := Prog Proc Fault

def onPg {α : Type} (x : Paging.PgM α) : LoadM α := Prog.zoom Proc.pg (fun p pg => { p with pg }) .paging x

def onFs {α : Type} (x : FsM α) : LoadM α := Prog.zoom Proc.fs (fun p fs => { p with fs }) .fs x

def assert (P : Prop) [Decidable P] : LoadM Unit := if P then pure () else throw .assertion

/-- A result of type `uint32_t`. -/
def uint32 (x : ℤ) : LoadM ℕ := if 0 ≤ x ∧ x < 2 ^ 32 then pure x.toNat else throw .wrap

/-- `ROUND_UP`. -/
def roundUp (x step : ℕ) : LoadM ℕ := do
  let y ← uint32 (x + step)
  let y ← uint32 (y - 1)
  uint32 (y / step * step : ℕ)

/-! ## Headers -/

def toHalf (l : List UInt8) : ℕ := (l[0]?.getD 0).toNat + 256 * (l[1]?.getD 0).toNat

/-- The fields of `struct Elf32_Ehdr` that are read. -/
structure Ehdr where
  ident : List UInt8
  type : ℕ
  machine : ℕ
  version : ℕ
  entry : ℕ
  phoff : ℕ
  phentsize : ℕ
  phnum : ℕ
  deriving DecidableEq, Repr

def Ehdr.ofBytes (l : List UInt8) : Ehdr where
  ident := l.take 7
  type := toHalf (l.drop 16)
  machine := toHalf (l.drop 18)
  version := toWord (l.drop 20)
  entry := toWord (l.drop 24)
  phoff := toWord (l.drop 28)
  phentsize := toHalf (l.drop 42)
  phnum := toHalf (l.drop 44)

/-- The header is that of an executable that can be loaded. -/
def Ehdr.Ok (e : Ehdr) : Prop :=
  e.ident = [0x7f, 0x45, 0x4c, 0x46, 1, 1, 1] ∧ e.type = 2 ∧ e.machine = 3 ∧ e.version = 1 ∧ e.phentsize = 32 ∧ e.phnum ≤ 1024

instance (e : Ehdr) : Decidable e.Ok := inferInstanceAs (Decidable (_ ∧ _))

/-- The fields of `struct Elf32_Phdr` that are read. -/
structure Phdr where
  type : ℕ
  offset : ℕ
  vaddr : ℕ
  filesz : ℕ
  memsz : ℕ
  flags : ℕ
  deriving DecidableEq, Repr

def Phdr.ofBytes (l : List UInt8) : Phdr where
  type := toWord l
  offset := toWord (l.drop 4)
  vaddr := toWord (l.drop 8)
  filesz := toWord (l.drop 16)
  memsz := toWord (l.drop 20)
  flags := toWord (l.drop 24)

/-- The checks of `validate_segment` behind the first one; `length` is that of the file as `Elf32_Off`. -/
def Phdr.valid (phdr : Phdr) (length : ℕ) : Bool :=
  if length < phdr.offset then false
  else if phdr.memsz < phdr.filesz then false
  else if phdr.memsz = 0 then false
  else if ¬ phdr.vaddr < physBase then false
  else if ¬ addr (phdr.vaddr + phdr.memsz) < physBase then false
  else if addr (phdr.vaddr + phdr.memsz) < phdr.vaddr then false
  else if phdr.vaddr < pgSize then false
  else true

def validateSegment (phdr : Phdr) (file : ℕ) : LoadM Bool := do
  if pgOfs phdr.offset ≠ pgOfs phdr.vaddr then pure false
  else do
    let length ← onFs (fileLength file)
    pure (phdr.valid (length % 2 ^ 32).toNat)

/-! ## Segments -/

def installPage (upage kpage : ℕ) (writable : Bool) : LoadM Bool := do
  let p ← get
  let old ← onPg (Paging.pagedirGetPage p.pagedir upage)
  match old with
  | none => onPg (Paging.pagedirSetPage p.pagedir upage kpage writable)
  | some _ => pure false

/-- The page is filled and mapped, or freed. -/
def fillPage (file upage kpage pageReadBytes : ℕ) (writable : Bool) : LoadM Bool := do
  let bytes ← onFs (fileRead file pageReadBytes)
  onPg (Paging.writeBytes kpage bytes)
  if bytes.length ≠ pageReadBytes then do
    onPg (Paging.pallocFreePage kpage)
    pure false
  else do
    onPg (Paging.writeBytes (kpage + pageReadBytes) (List.replicate (pgSize - pageReadBytes) 0))
    let installed ← installPage upage kpage writable
    if installed then pure true
    else do
      onPg (Paging.pallocFreePage kpage)
      pure false

/-- The loop of `load_segment`, with a bound on its turns. -/
def loadPages (file : ℕ) (writable : Bool) : ℕ → ℕ → ℕ → ℕ → LoadM Bool
  | 0, _, readBytes, zeroBytes => if 0 < readBytes ∨ 0 < zeroBytes then throw .bound else pure true
  | turns + 1, upage, readBytes, zeroBytes =>
    if 0 < readBytes ∨ 0 < zeroBytes then do
      let pageReadBytes := if readBytes < pgSize then readBytes else pgSize
      let kpage ← onPg (Paging.pallocGetPage true false)
      match kpage with
      | none => pure false
      | some kpage => do
        let filled ← fillPage file upage kpage pageReadBytes writable
        if filled then do
          let readBytes ← uint32 (readBytes - pageReadBytes)
          let zeroBytes ← uint32 (zeroBytes - (pgSize - pageReadBytes : ℕ))
          loadPages file writable turns (addr (upage + pgSize)) readBytes zeroBytes
        else pure false
    else pure true

def loadSegment (file : ℕ) (ofs : ℤ) (upage readBytes zeroBytes : ℕ) (writable : Bool) : LoadM Bool := do
  let total ← uint32 (readBytes + zeroBytes)
  assert (total % pgSize = 0)
  assert (pgOfs upage = 0)
  assert (ofs.tmod pgSize = 0)
  onFs (fileSeek file ofs)
  loadPages file writable (total / pgSize) upage readBytes zeroBytes

/-- `read_bytes` and `zero_bytes` of a segment. -/
def segmentBytes (phdr : Phdr) : LoadM (ℕ × ℕ) :=
  let pageOffset := pgOfs phdr.vaddr
  if 0 < phdr.filesz then do
    let readBytes ← uint32 (pageOffset + phdr.filesz)
    let end_ ← uint32 (pageOffset + phdr.memsz)
    let total ← roundUp end_ pgSize
    let zeroBytes ← uint32 (total - readBytes)
    pure (readBytes, zeroBytes)
  else do
    let end_ ← uint32 (pageOffset + phdr.memsz)
    let zeroBytes ← roundUp end_ pgSize
    pure (0, zeroBytes)

/-- `PF_W`. -/
def Phdr.writable (phdr : Phdr) : Bool := phdr.flags &&& 2 != 0

/-- The case `PT_LOAD`, for a segment that is valid. -/
def loadValid (phdr : Phdr) (file : ℕ) : LoadM Bool := do
  let bytes ← segmentBytes phdr
  let filePage := phdr.offset - pgOfs phdr.offset
  let memPage := phdr.vaddr - pgOfs phdr.vaddr
  loadSegment file (Int.bmod filePage (2 ^ 32)) memPage bytes.1 bytes.2 phdr.writable

/-- The case `PT_LOAD`. -/
def loadPhdr (phdr : Phdr) (file : ℕ) : LoadM Bool := do
  let valid ← validateSegment phdr file
  if valid then loadValid phdr file else pure false

/-- `setup_stack`: the value of `*esp`. -/
def setupStack : LoadM (Option ℕ) := do
  let kpage ← onPg (Paging.pallocGetPage true true)
  match kpage with
  | none => pure none
  | some kpage => do
    let installed ← installPage (physBase - pgSize) kpage true
    if installed then pure (some physBase)
    else do
      onPg (Paging.pallocFreePage kpage)
      pure none

/-! ## Programs -/

/-- The loop over the program headers, with `n` of them left. -/
def loadHeaders (file : ℕ) : ℕ → ℤ → LoadM Bool
  | 0, _ => pure true
  | n + 1, fileOfs => do
    let length ← onFs (fileLength file)
    if fileOfs < 0 ∨ length < fileOfs then pure false
    else do
      onFs (fileSeek file fileOfs)
      let bytes ← onFs (fileRead file 32)
      if bytes.length ≠ 32 then pure false
      else
        let phdr := Phdr.ofBytes bytes
        -- `PT_DYNAMIC`, `PT_INTERP` and `PT_SHLIB`
        if phdr.type = 2 ∨ phdr.type = 3 ∨ phdr.type = 5 then pure false
        else if phdr.type = 1 then do
          let loaded ← loadPhdr phdr file
          if loaded then loadHeaders file n (fileOfs + 32) else pure false
        else loadHeaders file n (fileOfs + 32)

/-- The part of `load` behind the opening of the file: `*eip` and `*esp`. -/
def loadFile (file : ℕ) : LoadM (Option (ℕ × ℕ)) := do
  let bytes ← onFs (fileRead file 52)
  let ehdr := Ehdr.ofBytes bytes
  if bytes.length = 52 ∧ ehdr.Ok then do
    let loaded ← loadHeaders file ehdr.phnum (Int.bmod ehdr.phoff (2 ^ 32))
    if loaded then do
      let esp ← setupStack
      pure (esp.map fun esp => (ehdr.entry, esp))
    else pure none
  else pure none

/-- The end of `load`. -/
def loadDone (file : ℕ) : Option (ℕ × ℕ) → LoadM (Option (ℕ × ℕ × ℕ))
  | some (eip, esp) => do
    onFs (fileDenyWrite file)
    pure (some (eip, esp, file))
  | none => do
    onFs (fileClose file)
    pure none

/-- `load`: `*eip`, `*esp` and `*ef`, if it succeeds. -/
def load (line : Name) : LoadM (Option (ℕ × ℕ × ℕ)) := do
  let pd ← onPg Paging.pagedirCreate
  modify fun p => { p with pagedir := pd.getD 0 }
  match pd with
  | none => pure none
  | some _ => do
    let file ← onFs (filesysOpen (Args.programName line))
    match file with
    | none => pure none
    | some file => do
      onFs (fileDenyWrite file)
      let loaded ← loadFile file
      loadDone file loaded

/-! ## The end of a process -/

/-- `thread_current ()->executable_f = executable_f`, in `start_process`. -/
def setExecutable : Option (ℕ × ℕ × ℕ) → LoadM Unit
  | some (_, _, file) => modify fun p => { p with executableF := some file }
  | none => pure ()

/-- The executable is closed. -/
def closeExecutable : Option ℕ → LoadM Unit
  | some file => do
    onFs (fileAllowWrite file)
    onFs (fileClose file)
  | none => pure ()

def processExit : LoadM Unit := do
  let p ← get
  closeExecutable p.executableF
  if p.pagedir ≠ 0 then do
    modify fun p => { p with pagedir := 0 }
    onPg (Paging.pagedirDestroy p.pagedir)
  else pure ()

end Pintos.Process
