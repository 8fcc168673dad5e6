/-
  The file system with other processes in between (filesys/inode.c, free-map.c, directory.c, file.c and
  filesys.c).

  The functions of Fs/ once more, as programs that other processes may interrupt: every `block_read` and
  `block_write` is one request to the device, before and behind which others may run.  What lies between two
  requests is not interrupted.  State that others may change is read again wherever the source reads it
  again: `inode->data` in each turn of the loops, the bits of the free map for each sector that is written.
-/
import Pintos.Fs.Filesys
import Pintos.Lib.Co

namespace Pintos.Conc

open Lib

abbrev FsCo := Co Fs Panic

/-! ## Devices and inodes -/

def blockRead (sector : ℕ) : FsCo (List UInt8) := .request (Pintos.blockRead sector)

def blockWrite (sector : ℕ) (buffer : List UInt8) : FsCo Unit := .request (Pintos.blockWrite sector buffer)

/-- The loop of `inode_read_at`; `buffer` holds what was read so far. -/
def readLoop (inode : ℕ) : ℕ → Bool → ℤ → ℕ → List UInt8 → FsCo (List UInt8)
  | 0, _, size, _, buffer => if 0 < size then .fail .bound else pure buffer
  | fuel + 1, bounce, size, offset, buffer =>
    if 0 < size then do
      let n ← .atomic (getInode inode)
      let chunk := chunkSize n size offset
      if chunk ≤ 0 then pure buffer
      else if offset % 512 = 0 ∧ chunk = 512 then do
        let sector ← blockRead (byteToSector n offset)
        readLoop inode fuel bounce (size - chunk) (offset + chunk.toNat) (buffer ++ sector)
      else do
        let found ← .atomic (bounceBuffer bounce)
        if found then do
          let sector ← blockRead (byteToSector n offset)
          readLoop inode fuel true (size - chunk) (offset + chunk.toNat)
            (buffer ++ (sector.drop (offset % 512)).take chunk.toNat)
        else pure buffer
    else pure buffer

def inodeReadAt (inode : ℕ) (size : ℤ) (offset : ℕ) : FsCo (List UInt8) := do
  let _ ← .atomic (getInode inode)
  readLoop inode size.toNat false size offset []

/-- The loop of `inode_write_at`; `buffer` is what the memory of the buffer holds in a state. -/
def writeLoop (inode : ℕ) (buffer : Fs → ℕ → UInt8) : ℕ → Bool → ℤ → ℕ → ℕ → FsCo ℕ
  | 0, _, size, _, written => if 0 < size then .fail .bound else pure written
  | fuel + 1, bounce, size, offset, written =>
    if 0 < size then do
      let n ← .atomic (getInode inode)
      let chunk := chunkSize n size offset
      if chunk ≤ 0 then pure written
      else if offset % 512 = 0 ∧ chunk = 512 then do
        let s ← .atomic get
        blockWrite (byteToSector n offset) (slice (buffer s) written 512)
        writeLoop inode buffer fuel bounce (size - chunk) (offset + chunk.toNat) (written + chunk.toNat)
      else do
        let found ← .atomic (bounceBuffer bounce)
        if found then do
          -- keep the data before and behind the chunk
          let sector ← if 0 < offset % 512 ∨ chunk < 512 - (offset % 512 : ℕ) then blockRead (byteToSector n offset)
            else pure (List.replicate 512 0)
          let s ← .atomic get
          blockWrite (byteToSector n offset) (overwrite sector (offset % 512) (slice (buffer s) written chunk.toNat))
          writeLoop inode buffer fuel true (size - chunk) (offset + chunk.toNat) (written + chunk.toNat)
        else pure written
    else pure written

/-- `inode_write_at`; whether writes are denied is tested once. -/
def inodeWriteAt (inode : ℕ) (buffer : Fs → ℕ → UInt8) (size : ℤ) (offset : ℕ) : FsCo ℕ := do
  let n ← .atomic (getInode inode)
  if n.denyWriteCnt ≠ 0 then pure 0 else writeLoop inode buffer size.toNat false size offset 0

/-! ## The free map -/

def fileWriteAt (file : ℕ) (buffer : Fs → ℕ → UInt8) (size : ℤ) (ofs : ℕ) : FsCo ℕ := do
  let f ← .atomic (getFile file)
  inodeWriteAt f.inode buffer size ofs

/-- `bitmap_write (free_map, file)`. -/
def bitmapWrite (file : ℕ) : FsCo Bool := do
  let s ← .atomic get
  let written ← fileWriteAt file (fun s => s.freeMap.byte) (Bitmap.byteCnt s.freeMap.bitCnt) 0
  pure (written == Bitmap.byteCnt s.freeMap.bitCnt)

def freeMapAllocate (cnt : ℕ) : FsCo (Option ℕ) := do
  let flipped ← .atomic do
    let flipped ← onFreeMap fun b => b.scanAndFlip 0 cnt false
    modify fun s => s.withFreeMap flipped.2
    pure flipped.1
  match flipped with
  | none => pure none
  | some sector => do
    let s ← .atomic get
    match s.freeMapFile with
    | none => pure (some sector)
    | some file => do
      let written ← bitmapWrite file
      if written then pure (some sector)
      else do
        .atomic do
          let b ← onFreeMap fun b => b.setMultiple sector cnt false
          modify fun s => s.withFreeMap b
        pure none

/-- `free_map_release` up to `bitmap_write`. -/
def clearBits (sector cnt : ℕ) : FsM Unit := do
  let all ← onFreeMap fun b => b.all sector cnt
  if all then do
    let b ← onFreeMap fun b => b.setMultiple sector cnt false
    modify fun s => s.withFreeMap b
  else throw .release

def freeMapRelease (sector cnt : ℕ) : FsCo Unit := do
  .atomic (clearBits sector cnt)
  let s ← .atomic get
  match s.freeMapFile with
  | none => .fail .pointer
  | some file => do
    let _ ← bitmapWrite file
    pure ()

/-! ## Opening and closing inodes -/

/-- The loop of `inode_create`. -/
def zeroLoop (start : ℕ) : ℕ → ℕ → FsCo Unit
  | 0, _ => pure ()
  | n + 1, i => do
    blockWrite (start + i) (List.replicate 512 0)
    zeroLoop start n (i + 1)

def inodeCreate (sector : ℕ) (length : ℤ) : FsCo Bool := do
  if length < 0 then .fail .length
  else do
    let found ← .atomic malloc
    if found then do
      let allocated ← freeMapAllocate (bytesToSectors length)
      match allocated with
      | some start => do
        blockWrite sector (InodeDisk.toBytes ⟨start, length, inodeMagic⟩)
        zeroLoop start (bytesToSectors length) 0
        pure true
      | none => pure false
    else pure false

section
variable (junk : ℕ → InodeDisk)

/-- `inode_open` up to `block_read`: the inode, and whether it is new. -/
def enlist (sector : ℕ) : FsM (Option (ℕ × Bool)) := do
  let s ← get
  let already ← openLoop sector s.openInodes
  match already with
  | some i => do
    let _ ← inodeReopen (some i)
    pure (some (i, false))
  | none => do
    let found ← malloc
    if found then do
      let s ← get
      set (s.withInodes (s.inodes.next :: s.openInodes)
        (s.inodes.alloc ⟨sector, 1, false, 0, junk s.inodes.next⟩))
      pure (some (s.inodes.next, true))
    else pure none

/-- `block_read (fs_device, inode->sector, &inode->data)`. -/
def readInode (i sector : ℕ) : FsM Unit := do
  let data ← Pintos.blockRead sector
  let n ← getInode i
  setInode i { n with data := InodeDisk.ofBytes data }

def inodeOpen (sector : ℕ) : FsCo (Option ℕ) := do
  let r ← .atomic (enlist junk sector)
  match r with
  | none => pure none
  | some (i, false) => pure (some i)
  | some (i, true) => do
    .request (readInode i sector)
    pure (some i)

/-- `inode_close` up to the release of sectors: the inode, if this was the last reference. -/
def dropRef (i : ℕ) : FsM (Option Inode) := do
  let n ← getInode i
  setInode i { n with openCnt := n.openCnt - 1 }
  if n.openCnt - 1 = 0 then do
    modify fun s => s.withInodes (s.openInodes.erase i) s.inodes
    pure (some n)
  else pure none

def freeInode (i : ℕ) : FsM Unit := modify fun s => s.withInodes s.openInodes (s.inodes.free i)

def inodeClose : Option ℕ → FsCo Unit
  | none => pure ()
  | some i => do
    let last ← .atomic (dropRef i)
    match last with
    | none => pure ()
    | some n =>
      if n.removed then do
        freeMapRelease n.sector 1
        freeMapRelease n.data.start (bytesToSectors n.data.length)
        .atomic (freeInode i)
      else .atomic (freeInode i)

/-! ## The directory -/

def dirOpen (inode : Option ℕ) : FsCo (Option Dir) := do
  let found ← .atomic malloc
  match inode, found with
  | some i, true => pure (some ⟨i⟩)
  | _, _ => do
    inodeClose inode
    pure none

def dirOpenRoot : FsCo (Option Dir) := do
  let inode ← inodeOpen junk 1
  dirOpen inode

def dirClose : Option Dir → FsCo Unit
  | none => pure ()
  | some dir => inodeClose (some dir.inode)

/-- The loops of `lookup` and `dir_add`. -/
def scanLoop (inode : ℕ) (p : DirEntry → Bool) : ℕ → ℕ → List UInt8 → FsCo (Bool × ℕ × List UInt8)
  | 0, _, _ => .fail .bound
  | fuel + 1, ofs, e => do
    let bytes ← inodeReadAt inode 20 ofs
    let e := overwrite e 0 bytes
    if bytes.length = 20 then
      if p (.ofBytes e) then pure (true, ofs, e) else scanLoop inode p fuel (ofs + 20) e
    else pure (false, ofs, e)

/-- Scan the whole directory.  Its length may change while it is scanned, but it is an `off_t`. -/
def scanDir (dir : Dir) (p : DirEntry → Bool) : FsCo (Bool × ℕ × List UInt8) := do
  let n ← .atomic (getInode dir.inode)
  scanLoop dir.inode p (n.data.length.toNat / 20 + 1 + 2 ^ 27) 0 (List.replicate 20 0)

def lookup (dir : Dir) (name : Name) : FsCo (Option (DirEntry × ℕ)) := do
  let r ← scanDir dir (DirEntry.hasName name)
  pure (if r.1 then some (.ofBytes r.2.2, r.2.1) else none)

def dirLookup (dir : Dir) (name : Name) : FsCo (Option ℕ) := do
  let found ← lookup dir name
  match found with
  | some (e, _) => inodeOpen junk e.inodeSector
  | none => pure none

def dirAdd (dir : Dir) (name : Name) (inodeSector : ℕ) : FsCo Bool := do
  if name.val = [] ∨ 14 < name.val.length then pure false
  else do
    let found ← lookup dir name
    match found with
    | some _ => pure false
    | none => do
      let r ← scanDir dir fun e => !e.inUse
      let e := (DirEntry.ofBytes r.2.2).renew name inodeSector
      let written ← inodeWriteAt dir.inode (fun _ => e.buffer) 20 r.2.1
      pure (written == 20)

def dirRemove (dir : Dir) (name : Name) : FsCo Bool := do
  let found ← lookup dir name
  match found with
  | none => pure false
  | some (e, ofs) => do
    let inode ← inodeOpen junk e.inodeSector
    match inode with
    | none => pure false
    | some i => do
      let written ← inodeWriteAt dir.inode (fun _ => e.unused.buffer) 20 ofs
      if written = 20 then do
        .atomic (inodeRemove i)
        inodeClose (some i)
        pure true
      else do
        inodeClose (some i)
        pure false

/-! ## Files and the file system -/

/-- The first part of `file_open`: the file, if there is memory for it. -/
def newFile (inode : Option ℕ) : FsM (Option ℕ) := do
  let found ← malloc
  match inode, found with
  | some i, true => do
    let s ← get
    set (s.withFiles (s.files.alloc ⟨i, 0, false⟩))
    pure (some s.files.next)
  | _, _ => pure none

def fileOpen (inode : Option ℕ) : FsCo (Option ℕ) := do
  let file ← .atomic (newFile inode)
  match file with
  | some file => pure (some file)
  | none => do
    inodeClose inode
    pure none

def fileClose (file : ℕ) : FsCo Unit := do
  .atomic (fileAllowWrite file)
  let f ← .atomic (getFile file)
  inodeClose (some f.inode)
  .atomic (modify fun s => s.withFiles (s.files.free file))

def fileRead (file : ℕ) (size : ℤ) : FsCo (List UInt8) := do
  let f ← .atomic (getFile file)
  let bytes ← inodeReadAt f.inode size f.pos
  .atomic do
    let f ← getFile file
    setFile file { f with pos := f.pos + bytes.length }
  pure bytes

def fileWrite (file : ℕ) (buffer : ℕ → UInt8) (size : ℤ) : FsCo ℕ := do
  let f ← .atomic (getFile file)
  let written ← inodeWriteAt f.inode (fun _ => buffer) size f.pos
  .atomic do
    let f ← getFile file
    setFile file { f with pos := f.pos + written }
  pure written

/-- `inode_create (inode_sector, initial_size) && dir_add (dir, name, inode_sector)`. -/
def createAndAdd (dir : Dir) (name : Name) (inodeSector : ℕ) (initialSize : ℤ) : FsCo Bool := do
  let created ← inodeCreate inodeSector initialSize
  if created then dirAdd dir name inodeSector else pure false

/-- `if (!success && inode_sector != 0) free_map_release (inode_sector, 1)`. -/
def releaseFailed (success : Bool) (inodeSector : ℕ) : FsCo Unit :=
  if !success && inodeSector != 0 then freeMapRelease inodeSector 1 else pure ()

def filesysCreate (name : Name) (initialSize : ℤ) : FsCo Bool := do
  let dir ← dirOpenRoot junk
  match dir with
  | none => pure false
  | some dir => do
    let allocated ← freeMapAllocate 1
    match allocated with
    | none => do
      dirClose (some dir)
      pure false
    | some inodeSector => do
      let success ← createAndAdd dir name inodeSector initialSize
      releaseFailed success inodeSector
      dirClose (some dir)
      pure success

def filesysOpen (name : Name) : FsCo (Option ℕ) := do
  let dir ← dirOpenRoot junk
  match dir with
  | none => fileOpen none
  | some dir => do
    let inode ← dirLookup junk dir name
    dirClose (some dir)
    fileOpen inode

def filesysRemove (name : Name) : FsCo Bool := do
  let dir ← dirOpenRoot junk
  match dir with
  | none => pure false
  | some dir => do
    let success ← dirRemove junk dir name
    dirClose (some dir)
    pure success

end

end Pintos.Conc
