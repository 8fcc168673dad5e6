/-
  The file system (filesys/filesys.c, filesys/file.c, and the rest of filesys/free-map.c).

  A file that is open is its index in the heap of files, the handle.  `Op` are the calls that the
  rest of the kernel makes, each run to completion.
-/
import Pintos.Fs.Directory

namespace Pintos

open Lib

/-! ## Files -/

def fileOpen (inode : Option ℕ) : FsM (Option ℕ) := do
  let found ← malloc
  match inode, found with
  | some i, true => do
    let s ← get
    set (s.withFiles (s.files.alloc ⟨i, 0, false⟩))
    pure (some s.files.next)
  | _, _ => do
    inodeClose inode
    pure none

def fileReopen (file : ℕ) : FsM (Option ℕ) := do
  let f ← getFile file
  let inode ← inodeReopen (some f.inode)
  fileOpen inode

def fileDenyWrite (file : ℕ) : FsM Unit := do
  let f ← getFile file
  if f.denyWrite then pure ()
  else do
    setFile file { f with denyWrite := true }
    inodeDenyWrite f.inode

def fileAllowWrite (file : ℕ) : FsM Unit := do
  let f ← getFile file
  if f.denyWrite then do
    setFile file { f with denyWrite := false }
    inodeAllowWrite f.inode
  else pure ()

def fileClose (file : ℕ) : FsM Unit := do
  fileAllowWrite file
  let f ← getFile file
  inodeClose (some f.inode)
  modify fun s => s.withFiles (s.files.free file)

def fileRead (file : ℕ) (size : ℤ) : FsM (List UInt8) := do
  let f ← getFile file
  let bytes ← inodeReadAt f.inode size f.pos
  setFile file { f with pos := f.pos + bytes.length }
  pure bytes

def fileWrite (file : ℕ) (buffer : ℕ → UInt8) (size : ℤ) : FsM ℕ := do
  let f ← getFile file
  let written ← inodeWriteAt f.inode buffer size f.pos
  setFile file { f with pos := f.pos + written }
  pure written

def fileSeek (file : ℕ) (newPos : ℤ) : FsM Unit := do
  let f ← getFile file
  if newPos < 0 then throw .position else setFile file { f with pos := newPos.toNat }

/-- `file_length`, with `inode_length`. -/
def fileLength (file : ℕ) : FsM ℤ := do
  let f ← getFile file
  let n ← getInode f.inode
  pure n.data.length

def fileTell (file : ℕ) : FsM ℕ := do
  let f ← getFile file
  pure f.pos

/-! ## The file system -/

/-- `inode_create (inode_sector, initial_size) && dir_add (dir, name, inode_sector)`. -/
def createAndAdd (dir : Dir) (name : Name) (inodeSector : ℕ) (initialSize : ℤ) : FsM Bool := do
  let created ← inodeCreate inodeSector initialSize
  if created then dirAdd dir name inodeSector else pure false

/-- `if (!success && inode_sector != 0) free_map_release (inode_sector, 1)`. -/
def releaseFailed (success : Bool) (inodeSector : ℕ) : FsM Unit :=
  if !success && inodeSector != 0 then freeMapRelease inodeSector 1 else pure ()

def filesysCreate (name : Name) (initialSize : ℤ) : FsM Bool := do
  let dir ← dirOpenRoot
  match dir with
  | none => pure false
  | some dir => do
    let allocated ← freeMapAllocate 1
    match allocated with
    | none => do
      -- `inode_sector` is still 0, so that nothing is released
      dirClose (some dir)
      pure false
    | some inodeSector => do
      let success ← createAndAdd dir name inodeSector initialSize
      releaseFailed success inodeSector
      dirClose (some dir)
      pure success

/-- `filesys_open`; `dir_close (NULL)` does nothing. -/
def filesysOpen (name : Name) : FsM (Option ℕ) := do
  let dir ← dirOpenRoot
  match dir with
  | none => fileOpen none
  | some dir => do
    let inode ← dirLookup dir name
    dirClose (some dir)
    fileOpen inode

def filesysRemove (name : Name) : FsM Bool := do
  let dir ← dirOpenRoot
  match dir with
  | none => pure false
  | some dir => do
    let success ← dirRemove dir name
    dirClose (some dir)
    pure success

/-! ## Formatting -/

/-- `bitmap_create (block_size (fs_device))`. -/
def bitmapCreate (junk : ℕ → Bool) : FsM (Option Bitmap) := do
  let bitmap ← malloc
  if bitmap then do
    let bits ← malloc
    let s ← get
    pure (if bits || s.size == 0 then some (.create s.size junk) else none)
  else pure none

def freeMapInit (junk : ℕ → Bool) : FsM Unit := do
  let bitmap ← bitmapCreate junk
  match bitmap with
  | some b => modify fun s => s.withFreeMap ((b.mark 0).mark 1)
  | none => throw .format

/-- `free_map_file = file_open (inode_open (FREE_MAP_SECTOR))`. -/
def openMapFile : FsM ℕ := do
  let inode ← inodeOpen 0
  let file ← fileOpen inode
  modify fun s => { s with freeMapFile := file }
  match file with
  | some file => pure file
  | none => throw .format

def freeMapCreate : FsM Unit := do
  let s ← get
  let created ← inodeCreate 0 (Bitmap.byteCnt s.freeMap.bitCnt)
  if created then do
    let file ← openMapFile
    let written ← bitmapWrite file
    if written then pure () else throw .format
  else throw .format

def freeMapClose : FsM Unit := do
  let s ← get
  match s.freeMapFile with
  | some file => fileClose file
  | none => pure ()

def freeMapOpen : FsM Unit := do
  let file ← openMapFile
  let success ← bitmapRead file
  if success then pure () else throw .format

def doFormat : FsM Unit := do
  freeMapCreate
  let created ← dirCreate 1 16
  if created then freeMapClose else throw .format

def filesysInit (format : Bool) (junk : ℕ → Bool) : FsM Unit := do
  modify fun s => s.withInodes [] s.inodes
  freeMapInit junk
  if format then do
    doFormat
    freeMapOpen
  else freeMapOpen

/-- The kernel before `filesys_init`. -/
def Fs.boot (disk : ℕ → UInt8) (size : ℕ) (memory : ℕ → Bool) : Fs where
  disk := disk
  size := size
  freeMap := ⟨0, fun _ => false⟩
  freeMapFile := none
  openInodes := []
  inodes := .empty
  files := .empty
  memory := memory

/-! ## Calls -/

inductive Op where
  | create (name : Name) (initialSize : ℤ)
  | open_ (name : Name)
  | read (file : ℕ) (size : ℤ)
  | write (file : ℕ) (buffer : ℕ → UInt8) (size : ℤ)
  | seek (file : ℕ) (newPos : ℤ)
  | close (file : ℕ)
  | remove (name : Name)

inductive Result where
  | bool (b : Bool)
  | file (file : Option ℕ)
  | bytes (l : List UInt8)
  | count (n : ℕ)
  | done
  deriving DecidableEq

def Op.exec : Op → FsM Result
  | .create name initialSize => do return .bool (← filesysCreate name initialSize)
  | .open_ name => do return .file (← filesysOpen name)
  | .read file size => do return .bytes (← fileRead file size)
  | .write file buffer size => do return .count (← fileWrite file buffer size)
  | .seek file newPos => do fileSeek file newPos; return .done
  | .close file => do fileClose file; return .done
  | .remove name => do return .bool (← filesysRemove name)

/-- A handle that `filesys_open` returned and that is not closed. -/
def Fs.IsHandle (s : Fs) (file : ℕ) : Prop := (s.files.get file).isSome ∧ s.freeMapFile ≠ some file

/-- The calls that may be made: handles are open and positions are not negative; `off_t` has 32
    bits. -/
def Op.Enabled (s : Fs) : Op → Prop
  | .create _ initialSize => initialSize < 2 ^ 31
  | .open_ _ => True
  | .read file _ => s.IsHandle file
  | .write file _ _ => s.IsHandle file
  | .seek file newPos => s.IsHandle file ∧ 0 ≤ newPos
  | .close file => s.IsHandle file
  | .remove _ => True

/-- `inode_create` asserts that the size of a new file is not negative. -/
def Op.SizeOk : Op → Prop
  | .create _ initialSize => 0 ≤ initialSize
  | _ => True

/-- One call that completes, and its result. -/
def Fs.Step (s : Fs) (l : Op × Result) (t : Fs) : Prop := l.1.Enabled s ∧ l.1.exec.run s = .ok (l.2, t)

instance (s : Fs) (file : ℕ) : Decidable (s.IsHandle file) := inferInstanceAs (Decidable (_ ∧ _))

instance (s : Fs) : ∀ op : Op, Decidable (op.Enabled s)
  | .create _ initialSize => inferInstanceAs (Decidable (initialSize < 2 ^ 31))
  | .open_ _ | .remove _ => isTrue trivial
  | .read file _ | .write file _ _ | .close file => inferInstanceAs (Decidable (s.IsHandle file))
  | .seek file newPos => inferInstanceAs (Decidable (s.IsHandle file ∧ 0 ≤ newPos))

/-- A call that is to have a result. -/
def Fs.expect (s : Fs) (l : Op × Result) : Option Fs :=
  match l.1.exec.run s with
  | .ok (r, t) => if l.1.Enabled s ∧ r = l.2 then some t else none
  | .error _ => none

theorem Fs.step_of_expect {s t : Fs} {l : Op × Result} (h : s.expect l = some t) : s.Step l t := by
  unfold Fs.expect at h
  split at h
  next r u hrun =>
    split_ifs at h with hl
    cases h
    exact ⟨hl.1, hl.2 ▸ hrun⟩
  next => cases h

end Pintos
