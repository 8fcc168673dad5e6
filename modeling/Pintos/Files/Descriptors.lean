/-
  File descriptors (userprog/syscall.c and the lists of descriptors of threads/thread.c).

  Every thread has a list of the descriptors it opened; the list `fds_ll` has a stub for each thread with
  descriptors, and descriptors are looked up through the stubs.  A file that is to be removed while it is
  referred to is put on the `removing_list`, and `close` removes it later.
-/
import Pintos.Fs.Filesys

namespace Pintos.Files

open Lib

/-- `struct fd_elem`. -/
structure FdElem where
  fd : ℕ
  f : ℕ
  fileName : ℕ
  deriving DecidableEq, Repr

/-- `struct removing_file`. -/
structure RemovingFile where
  fileName : ℕ
  fd : ℕ
  t : ℕ
  deriving DecidableEq, Repr

/-- The strings in the memory of a process; one that runs into memory that is not mapped has no
    value. -/
abbrev Memory := ℕ → Option Name

/-- What a call that names a descriptor does with it.  `keys` is what is typed, `bytes` the buffer
    of a write and `eax` what is left in the register of the result. -/
inductive Use where
  | close
  | read (buffer length : ℕ) (keys : ℕ → UInt8)
  | write (buffer : ℕ) (bytes : ℕ → UInt8) (length : ℕ)
  | seek (position : ℕ)
  | tell
  | filesize (eax : ℕ)

inductive Call where
  | create (file initialSize : ℕ)
  | remove (file : ℕ)
  | open_ (file : ℕ)
  | use (fd : ℕ) (u : Use)
  | exit

/-- Results: the register, and what was stored in the buffer of a read. -/
inductive Ret where
  | void
  | eax (v : ℕ)
  | data (v : ℕ) (bytes : List UInt8)
  deriving DecidableEq

/-- A call that was made, with the name it was given. -/
structure Event where
  t : ℕ
  call : Call
  name : Option Name
  ret : Ret

structure Sys where
  fs : Fs
  /-- the threads; a thread that is not in the list has freed its page -/
  allList : List ℕ
  fdList : ℕ → List FdElem
  globalFd : ℕ
  /-- the stubs, by the threads whose `fd_list` they point to -/
  fdsLl : List ℕ
  removingList : List RemovingFile
  /-- the calls that were made, the last one first -/
  log : List Event

namespace Sys

def withFs (s : Sys) (fs : Fs) : Sys := { s with fs }

def withAllList (s : Sys) (allList : List ℕ) : Sys := { s with allList }

def withFdList (s : Sys) (t : ℕ) (l : List FdElem) : Sys := { s with fdList := Function.update s.fdList t l }

def withFdsLl (s : Sys) (fdsLl : List ℕ) : Sys := { s with fdsLl }

def withRemovingList (s : Sys) (removingList : List RemovingFile) : Sys := { s with removingList }

def record (s : Sys) (ev : Event) : Sys := { s with log := ev :: s.log }

/-- `global_fd++`. -/
def nextFd (s : Sys) : Sys := { s with globalFd := (s.globalFd + 1) % 2 ^ 32 }

/-- After `syscall_init`, with some processes that have no descriptors. -/
def boot (fs : Fs) (threads : List ℕ) : Sys := ⟨fs, threads, fun _ => [], 2, [], [], []⟩

end Sys

/-- Why a call does not complete. -/
inductive Fault where
  /-- a panic of the file system -/
  | fs (p : Panic)
  /-- the page of a thread that has exited is read -/
  | freed
  /-- a string is not in the memory of the process that runs -/
  | user
  /-- what `malloc` returned is not checked -/
  | null
  deriving DecidableEq, Repr

abbrev SysM := Prog Sys Fault

def minusOne : ℕ := 2 ^ 32 - 1

/-- `THREAD_FILES_MAX`. -/
def threadFilesMax : ℕ := 16

def onFs {α : Type} (x : FsM α) : SysM α := do
  let s ← get
  match x.run s.fs with
  | .ok (a, fs) => do
    set (s.withFs fs)
    pure a
  | .error e => throw (.fs e)

/-- Read a string in the memory of the process that runs. -/
def readName (mem : Memory) (p : ℕ) : SysM Name :=
  match mem p with
  | some name => pure name
  | none => throw .user

/-- The list that a stub points to. -/
def readFdList (t : ℕ) : SysM (List FdElem) := do
  let s ← get
  if t ∈ s.allList then pure (s.fdList t) else throw .freed

/-! ## Looking up descriptors -/

/-- The loop of `get_file_p` over the stubs. -/
def getFileLoop (fd : ℕ) : List ℕ → SysM (Option ℕ)
  | [] => pure none
  | t :: ts => do
    let l ← readFdList t
    match l.find? (·.fd == fd) with
    | some fde => pure (some fde.f)
    | none => getFileLoop fd ts

def getFileP (fd : ℕ) : SysM (Option ℕ) :=
  if fd = 1 ∨ fd = 0 then pure none
  else do
    let s ← get
    getFileLoop fd s.fdsLl

def Sys.getThreadByFd (s : Sys) (fd : ℕ) : Option ℕ := s.allList.find? fun t => (s.fdList t).any (·.fd == fd)

/-- `thread_add_fd`: whether the descriptor was added. -/
def threadAddFd (t fd f fileName : ℕ) : SysM Bool := do
  let s ← get
  if (s.fdList t).length < threadFilesMax then do
    let found ← onFs malloc
    if found then do
      modify fun s => s.withFdList t (s.fdList t ++ [⟨fd, f, fileName⟩])
      pure true
    else pure false
  else pure false

def threadRemoveFd (t fd : ℕ) : SysM Unit :=
  modify fun s => s.withFdList t ((s.fdList t).eraseP (·.fd == fd))

/-! ## Names of files that are to be removed -/

/-- The loop of `open` over the `removing_list`. -/
def isRemoving (mem : Memory) (name : Name) : List RemovingFile → SysM Bool
  | [] => pure false
  | rf :: rest => do
    let n ← readName mem rf.fileName
    if n = name then pure true else isRemoving mem name rest

/-- The loop of `already_in_removing_list`; a name is read only if the descriptor is the same. -/
def alreadyLoop (mem : Memory) (t : ℕ) (name : Name) (fd : ℕ) : List RemovingFile → SysM Bool
  | [] => pure false
  | rf :: rest =>
    if fd = minusOne ∨ rf.fd = fd then do
      let n ← readName mem rf.fileName
      if n = name ∧ t = rf.t then pure true else alreadyLoop mem t name fd rest
    else alreadyLoop mem t name fd rest

def alreadyInRemovingList (mem : Memory) (t : ℕ) (name : Name) (fd : ℕ) : SysM Bool := do
  let s ← get
  alreadyLoop mem t name fd s.removingList

/-- Put a file on the `removing_list`, if it is not there. -/
def addRemoving (mem : Memory) (t file : ℕ) (name : Name) (fd : ℕ) : SysM Unit := do
  let already ← alreadyInRemovingList mem t name fd
  if already then pure ()
  else do
    let found ← onFs malloc
    if found then modify fun s => s.withRemovingList (s.removingList ++ [⟨file, fd, t⟩]) else throw .null

/-- A descriptor of the list was opened with this name. -/
def referredIn (mem : Memory) (name : Name) : List FdElem → SysM Bool
  | [] => pure false
  | fde :: rest => do
    let n ← readName mem fde.fileName
    if n = name then pure true else referredIn mem name rest

/-- The loop of `is_referred` over the stubs. -/
def referredLoop (mem : Memory) (name : Name) : List ℕ → SysM Bool
  | [] => pure false
  | t :: ts => do
    let l ← readFdList t
    let found ← referredIn mem name l
    if found then pure true else referredLoop mem name ts

/-- The loop of `is_referred` over the descriptors of the thread that runs; `referred` is
    `referred_by_c_t`. -/
def registerLoop (mem : Memory) (t file : ℕ) (name : Name) : List FdElem → Bool → SysM Bool
  | [], referred => pure referred
  | cfd :: rest, referred => do
    let n ← readName mem cfd.fileName
    if n = name then do
      addRemoving mem t file name cfd.fd
      registerLoop mem t file name rest true
    else registerLoop mem t file name rest referred

def isReferred (mem : Memory) (t file : ℕ) (name : Name) : SysM Bool := do
  let s ← get
  let found ← referredLoop mem name s.fdsLl
  if found then do
    let byCt ← registerLoop mem t file name (s.fdList t) false
    if byCt then pure true
    else do
      addRemoving mem t file name minusOne
      pure true
  else pure false

/-! ## System calls -/

def create (mem : Memory) (file initialSize : ℕ) : SysM Bool :=
  if initialSize ≤ 204800 then do
    let name ← readName mem file
    if 128 < name.val.length then pure false
    else if name.val.length = 0 then pure false
    else onFs (filesysCreate name initialSize)
  else pure false

def remove (mem : Memory) (t file : ℕ) : SysM Bool := do
  let name ← readName mem file
  let referred ← isReferred mem t file name
  if referred then pure true else onFs (filesysRemove name)

/-- Add a descriptor to the list of a thread, and a stub if it is the first. -/
def addFd (t fd f file : ℕ) : SysM Unit := do
  let added ← threadAddFd t fd f file
  if added then do
    let s ← get
    if (s.fdList t).length = 1 then do
      let found ← onFs malloc
      if found then modify fun s => s.withFdsLl (s.fdsLl ++ [t]) else throw .null
    else pure ()
  else pure ()

def open_ (mem : Memory) (t file : ℕ) : SysM ℕ := do
  let name ← readName mem file
  if name.val.length = 0 then pure minusOne
  else do
    let s ← get
    let removing ← isRemoving mem name s.removingList
    if removing then pure minusOne
    else do
      let f ← onFs (filesysOpen name)
      match f with
      | none => pure minusOne
      | some f => do
        modify Sys.nextFd
        if 2 ≤ s.globalFd then do
          addFd t s.globalFd f file
          pure s.globalFd
        else pure s.globalFd

/-- `filesize`; without a file it has no `return`. -/
def filesize (fd eax : ℕ) : SysM ℕ := do
  let f ← getFileP fd
  match f with
  | some f => do
    let length ← onFs (fileLength f)
    pure (length % 2 ^ 32).toNat
  | none => pure eax

def read (fd buffer length : ℕ) (keys : ℕ → UInt8) : SysM (ℕ × List UInt8) :=
  if buffer ≠ 0 then
    if fd = 0 then pure (length, slice keys 0 length)
    else do
      let f ← getFileP fd
      match f with
      | some f => do
        let bytes ← onFs (fileRead f (Int.bmod length (2 ^ 32)))
        pure (bytes.length, bytes)
      | none => pure (minusOne, [])
  else pure (minusOne, [])

/-- The loop of `write` to the screen: the length that is left. -/
def putLoop (length : ℕ) : ℕ := if 128 < length then putLoop (length - 128) else length
termination_by length

/-- `write`; `strlen (buffer) > 0` if the first byte is not zero. -/
def write (fd buffer : ℕ) (bytes : ℕ → UInt8) (length : ℕ) : SysM ℕ :=
  if buffer ≠ 0 ∧ bytes 0 ≠ 0 then
    if fd = 1 then pure (putLoop length)
    else do
      let f ← getFileP fd
      match f with
      | some f => onFs (fileWrite f bytes (Int.bmod length (2 ^ 32)))
      | none => pure 0
  else pure 0

def seek (fd position : ℕ) : SysM Unit := do
  let f ← getFileP fd
  match f with
  | some f => onFs (fileSeek f (Int.bmod position (2 ^ 32)))
  | none => pure ()

def tell (fd : ℕ) : SysM ℕ := do
  let f ← getFileP fd
  match f with
  | some f => onFs (fileTell f)
  | none => pure minusOne

/-- `close` takes the descriptor from its thread, and the stub with the last descriptor. -/
def dropFd (t fd : ℕ) : SysM Unit := do
  threadRemoveFd t fd
  modify fun s => if (s.fdList t).isEmpty then s.withFdsLl (s.fdsLl.erase t) else s

/-- The end of `close`: the file is removed when the `removing_list` has no descriptor left. -/
def removeClosed (mem : Memory) (t : Option ℕ) (fd : ℕ) : SysM Unit := do
  let s ← get
  match s.removingList.find? fun rf => rf.fd == fd && t == some rf.t with
  | some rf => do
    let rest := s.removingList.eraseP fun rf => rf.fd == fd && t == some rf.t
    modify fun s => s.withRemovingList rest
    if (rest.takeWhile (·.fd == minusOne)).length = rest.length then do
      let name ← readName mem rf.fileName
      let _ ← onFs (filesysRemove name)
      pure ()
    else pure ()
  | none => pure ()

def close (mem : Memory) (fd : ℕ) : SysM Unit := do
  let f ← getFileP fd
  match f with
  | some f => do
    let s ← get
    match s.getThreadByFd fd with
    | some t => do
      dropFd t fd
      onFs (fileClose f)
      removeClosed mem (some t) fd
    | none => do
      onFs (fileClose f)
      removeClosed mem none fd
  | none => pure ()

/-- `exit`, as far as it is about descriptors, and the end of `thread_exit`. -/
def exit (t : ℕ) : SysM Unit := do
  modify fun s => s.withFdList t []
  modify fun s => s.withRemovingList (s.removingList.filter (·.t != t))
  modify fun s => s.withAllList (s.allList.erase t)

def Use.exec (mem : Memory) (fd : ℕ) : Use → SysM Ret
  | .close => do Files.close mem fd; pure .void
  | .read buffer length keys => do
    let r ← Files.read fd buffer length keys
    pure (.data r.1 r.2)
  | .write buffer bytes length => do return .eax (← Files.write fd buffer bytes length)
  | .seek position => do Files.seek fd position; pure .void
  | .tell => do return .eax (← Files.tell fd)
  | .filesize eax => do return .eax (← Files.filesize fd eax)

def Call.exec (mem : Memory) (t : ℕ) : Call → SysM Ret
  | .create file initialSize => do return .eax (if ← Files.create mem file initialSize then 1 else 0)
  | .remove file => do return .eax (if ← Files.remove mem t file then 1 else 0)
  | .open_ file => do return .eax (← Files.open_ mem t file)
  | .use fd u => u.exec mem fd
  | .exit => do Files.exit t; pure .void

/-- The name that a call is given. -/
def Call.name (mem : Memory) : Call → Option Name
  | .create file _ | .remove file | .open_ file => mem file
  | _ => none

/-- A thread makes a call, with its memory as it is then. -/
structure Request where
  t : ℕ
  mem : Memory
  call : Call

/-- One call that completes. -/
def Sys.step (s : Sys) (q : Request) : Option Sys :=
  if q.t ∈ s.allList then
    match (q.call.exec q.mem q.t).run s with
    | .ok (ret, s') => some (s'.record ⟨q.t, q.call, q.call.name q.mem, ret⟩)
    | .error _ => none
  else none

end Pintos.Files
