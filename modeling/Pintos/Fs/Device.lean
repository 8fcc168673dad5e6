/-
  The state of the file system and its device (devices/block.c, filesys/inode.c, filesys/file.c).

  The device is an array of bytes; the sector `n` holds the 512 (`BLOCK_SECTOR_SIZE`) bytes from
  `512 * n` on.  In memory the kernel has the free map, the list of open inodes and the open
  files; inodes and files are objects of a heap, a pointer to one is its index.  `memory` answers
  the calls of `malloc` and `calloc` to come: whether each of them finds memory.  All functions
  run in `FsM` and fail where the kernel panics.
-/
import Pintos.Fs.Bitmap
import Pintos.Lib.Bytes
import Pintos.Lib.Heap
import Pintos.Lib.Prog

namespace Pintos

open Lib Prog List

/-- `INODE_MAGIC`. -/
def inodeMagic : ℕ := 0x494e4f44

/-- `struct inode_disk`; its unused words are left out. -/
structure InodeDisk where
  start : ℕ
  length : ℤ
  magic : ℕ
  deriving DecidableEq, Repr

/-- `struct inode`. -/
structure Inode where
  sector : ℕ
  openCnt : ℤ
  removed : Bool
  denyWriteCnt : ℤ
  data : InodeDisk
  deriving DecidableEq, Repr

/-- `struct file`; `file_seek` asserts that positions are not negative. -/
structure File where
  inode : ℕ
  pos : ℕ
  denyWrite : Bool
  deriving DecidableEq, Repr

structure Fs where
  /-- the bytes of `fs_device` -/
  disk : ℕ → UInt8
  /-- `block_size (fs_device)` -/
  size : ℕ
  freeMap : Bitmap
  freeMapFile : Option ℕ
  openInodes : List ℕ
  inodes : Heap Inode
  files : Heap File
  memory : ℕ → Bool

namespace Fs

def withDisk (s : Fs) (disk : ℕ → UInt8) : Fs := { s with disk }

def withFreeMap (s : Fs) (freeMap : Bitmap) : Fs := { s with freeMap }

def withInodes (s : Fs) (openInodes : List ℕ) (inodes : Heap Inode) : Fs := { s with openInodes, inodes }

def withFiles (s : Fs) (files : Heap File) : Fs := { s with files }

/-- Allocations to come all succeed. -/
def MemoryOk (s : Fs) : Prop := s.memory = fun _ => true

end Fs

abbrev FsM := Prog Fs Panic

/-- `malloc` and `calloc`: whether there is memory. -/
def malloc : FsM Bool := do
  let s ← get
  set { s with memory := fun n => s.memory (n + 1) }
  pure (s.memory 0)

/-- `block_read`, with `check_sector`. -/
def blockRead (sector : ℕ) : FsM (List UInt8) := do
  let s ← get
  if sector < s.size then pure (slice s.disk (512 * sector) 512) else throw .pastEnd

/-- `block_write`, with `check_sector`; `buffer` has the size of a sector. -/
def blockWrite (sector : ℕ) (buffer : List UInt8) : FsM Unit := do
  let s ← get
  if sector < s.size then set (s.withDisk (store s.disk (512 * sector) buffer)) else throw .pastEnd

/-- Follow a pointer to an in-memory inode. -/
def getInode (inode : ℕ) : FsM Inode := do
  let s ← get
  match s.inodes.get inode with
  | some n => pure n
  | none => throw .pointer

def setInode (inode : ℕ) (n : Inode) : FsM Unit :=
  modify fun s => s.withInodes s.openInodes (s.inodes.set inode n)

/-- Follow a pointer to an open file. -/
def getFile (file : ℕ) : FsM File := do
  let s ← get
  match s.files.get file with
  | some f => pure f
  | none => throw .pointer

def setFile (file : ℕ) (f : File) : FsM Unit := modify fun s => s.withFiles (s.files.set file f)

/-- A computation on the free map. -/
def onFreeMap {α : Type} (f : Bitmap → Except Panic α) : FsM α := do
  let s ← get
  match f s.freeMap with
  | .ok a => pure a
  | .error e => throw e

/-! ## On-disk inodes -/

namespace InodeDisk

/-- The sector of an on-disk inode. -/
def toBytes (d : InodeDisk) : List UInt8 :=
  ofWord d.start ++ (ofWord (d.length % 2 ^ 32).toNat ++ (ofWord d.magic ++ List.replicate 500 0))

/-- An on-disk inode read from a sector; `length` is signed. -/
def ofBytes (l : List UInt8) : InodeDisk where
  start := toWord l
  length := Int.bmod (toWord (l.drop 4)) (2 ^ 32)
  magic := toWord (l.drop 8)

@[simp] theorem length_toBytes (d : InodeDisk) : d.toBytes.length = 512 := by
  rw [toBytes, length_append, length_append, length_append, length_replicate,
    length_ofWord, length_ofWord, length_ofWord]

theorem ofBytes_toBytes {d : InodeDisk} (hs : d.start < 2 ^ 32) (h0 : 0 ≤ d.length) (h1 : d.length < 2 ^ 31)
    (hm : d.magic < 2 ^ 32) : ofBytes d.toBytes = d := by
  have hlen : (d.length % 2 ^ 32).toNat < 2 ^ 32 := by omega
  have h4 : d.toBytes.drop 4 =
      ofWord (d.length % 2 ^ 32).toNat ++ (ofWord d.magic ++ replicate 500 0) := drop_left' rfl
  have h8 : d.toBytes.drop 8 = ofWord d.magic ++ replicate 500 0 := by
    have : d.toBytes.drop 8 = (d.toBytes.drop 4).drop 4 := by rw [drop_drop]
    rw [this, h4]
    exact drop_left' rfl
  unfold ofBytes
  rw [h4, h8, toBytes, toWord_ofWord_append hs, toWord_ofWord_append hlen, toWord_ofWord_append hm]
  have hb : Int.bmod ((d.length % 2 ^ 32).toNat : ℤ) (2 ^ 32) = d.length := by
    rw [Int.toNat_of_nonneg (by omega), Int.bmod_def]
    split_ifs <;> omega
  rw [hb]

end InodeDisk

/-- `bytes_to_sectors`: the sum is an `off_t` and the quotient becomes a `size_t`. -/
def bytesToSectors (size : ℤ) : ℕ :=
  (Int.tdiv (Int.bmod (size + 511) (2 ^ 32)) 512 % 2 ^ 32).toNat

/-- The sectors of `len` bytes. -/
def sectorsOf (len : ℕ) : ℕ := (len + 511) / 512

theorem bytesToSectors_eq {len : ℕ} (h : len + 511 < 2 ^ 31) : bytesToSectors len = sectorsOf len := by
  unfold bytesToSectors sectorsOf
  have hb : Int.bmod ((len : ℤ) + 511) (2 ^ 32) = len + 511 := by
    rw [Int.bmod_def]
    split_ifs <;> omega
  rw [hb, Int.tdiv_eq_ediv_of_nonneg (by omega)]
  omega

theorem lt_bytesToSectors {size : ℤ} (h0 : 2 ^ 31 ≤ size + 511) (h1 : size < 2 ^ 31) :
    2 ^ 31 < bytesToSectors size := by
  unfold bytesToSectors
  have hb : Int.bmod (size + 511) (2 ^ 32) = size + 511 - 2 ^ 32 := by
    rw [Int.bmod_def]
    split_ifs <;> omega
  have hd : Int.tdiv (size + 511 - 2 ^ 32) 512 = -((2 ^ 32 - (size + 511)) / 512) := by
    rw [show size + 511 - 2 ^ 32 = -(2 ^ 32 - (size + 511)) by ring, Int.neg_tdiv,
      Int.tdiv_eq_ediv_of_nonneg (by omega)]
  rw [hb, hd]
  omega

/-! ## Runs of the basic operations -/

section
variable {s : Fs}

theorem malloc_run (h : s.MemoryOk) : malloc.run s = .ok (true, s) := by
  unfold malloc
  rw [run_bind_get, run_bind_set, run_pure]
  have hm : (fun n => s.memory (n + 1)) = s.memory := by rw [h]
  have h0 : s.memory 0 = true := by rw [h]
  rw [hm, h0]

theorem blockRead_run {sector : ℕ} (h : sector < s.size) :
    (blockRead sector).run s = .ok (slice s.disk (512 * sector) 512, s) := by
  unfold blockRead
  rw [run_bind_get, if_pos h]; rfl

theorem blockWrite_run {sector : ℕ} (buffer : List UInt8) (h : sector < s.size) :
    (blockWrite sector buffer).run s = .ok ((), s.withDisk (store s.disk (512 * sector) buffer)) := by
  unfold blockWrite
  rw [run_bind_get, if_pos h]; rfl

theorem getInode_run {i : ℕ} {n : Inode} (h : s.inodes.get i = some n) : (getInode i).run s = .ok (n, s) := by
  unfold getInode
  rw [run_bind_get, h]; rfl

theorem getFile_run {i : ℕ} {f : File} (h : s.files.get i = some f) : (getFile i).run s = .ok (f, s) := by
  unfold getFile
  rw [run_bind_get, h]; rfl

theorem onFreeMap_run {α : Type} {f : Bitmap → Except Panic α} {a : α} (h : f s.freeMap = .ok a) :
    (onFreeMap f).run s = .ok (a, s) := by
  unfold onFreeMap
  rw [run_bind_get, h]; rfl

end

end Pintos
