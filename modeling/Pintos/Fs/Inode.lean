/-
  Inodes (filesys/inode.c).

  An inode is a sector on disk.  While it is open it is also in memory, once however often it is opened:
  `open_inodes` lists the inodes in memory, and `open_cnt` counts the references.
-/
import Pintos.Fs.FreeMap

namespace Pintos

open Lib Prog List

/-- The loop of `inode_create`. -/
def zeroLoop (start : ℕ) : ℕ → ℕ → FsM Unit
  | 0, _ => pure ()
  | n + 1, i => do
    blockWrite (start + i) (List.replicate 512 0)
    zeroLoop start n (i + 1)

def inodeCreate (sector : ℕ) (length : ℤ) : FsM Bool := do
  if length < 0 then throw .length
  else do
    let found ← malloc
    if found then do
      let allocated ← freeMapAllocate (bytesToSectors length)
      match allocated with
      | some start => do
        blockWrite sector (InodeDisk.toBytes ⟨start, length, inodeMagic⟩)
        zeroLoop start (bytesToSectors length) 0
        pure true
      | none => pure false
    else pure false

def inodeReopen : Option ℕ → FsM (Option ℕ)
  | none => pure none
  | some i => do
    let n ← getInode i
    setInode i { n with openCnt := n.openCnt + 1 }
    pure (some i)

/-- The loop of `inode_open`: the open inode with that sector. -/
def openLoop (sector : ℕ) : List ℕ → FsM (Option ℕ)
  | [] => pure none
  | i :: l => do
    let n ← getInode i
    if n.sector = sector then pure (some i) else openLoop sector l

def inodeOpen (sector : ℕ) : FsM (Option ℕ) := do
  let s ← get
  let already ← openLoop sector s.openInodes
  match already with
  | some i => inodeReopen (some i)
  | none => do
    let found ← malloc
    if found then do
      let data ← blockRead sector
      let s ← get
      set (s.withInodes (s.inodes.next :: s.openInodes)
        (s.inodes.alloc ⟨sector, 1, false, 0, InodeDisk.ofBytes data⟩))
      pure (some s.inodes.next)
    else pure none

def inodeClose : Option ℕ → FsM Unit
  | none => pure ()
  | some i => do
    let n ← getInode i
    setInode i { n with openCnt := n.openCnt - 1 }
    if n.openCnt - 1 = 0 then do
      modify fun s => s.withInodes (s.openInodes.erase i) s.inodes
      if n.removed then do
        freeMapRelease n.sector 1
        freeMapRelease n.data.start (bytesToSectors n.data.length)
        modify fun s => s.withInodes s.openInodes (s.inodes.free i)
      else modify fun s => s.withInodes s.openInodes (s.inodes.free i)
    else pure ()

def inodeRemove (i : ℕ) : FsM Unit := do
  let n ← getInode i
  setInode i { n with removed := true }

/-- `inode_deny_write`; `deny_write_cnt` is incremented before it is tested. -/
def inodeDenyWrite (i : ℕ) : FsM Unit := do
  let n ← getInode i
  if n.denyWriteCnt + 1 ≤ n.openCnt then setInode i { n with denyWriteCnt := n.denyWriteCnt + 1 }
  else throw .denyWrite

def inodeAllowWrite (i : ℕ) : FsM Unit := do
  let n ← getInode i
  if 0 < n.denyWriteCnt ∧ n.denyWriteCnt ≤ n.openCnt then
    setInode i { n with denyWriteCnt := n.denyWriteCnt - 1 }
  else throw .allowWrite

theorem setInode_run (s : Fs) (i : ℕ) (n : Inode) :
    (setInode i n).run s = .ok ((), s.withInodes s.openInodes (s.inodes.set i n)) := rfl

/-! ## Creating -/

theorem zeroLoop_run (start : ℕ) : ∀ (n i : ℕ) (s : Fs), start + i + n ≤ s.size →
    (zeroLoop start n i).run s =
      .ok ((), s.withDisk (store s.disk (512 * (start + i)) (List.replicate (512 * n) 0)))
  | 0, i, s, _ => by rw [Nat.mul_zero, replicate_zero, store_nil]; rfl
  | n + 1, i, s, h => by
    rw [zeroLoop, run_bind_ok (blockWrite_run _ (by omega)), zeroLoop_run start n (i + 1) _ (by
      change _ ≤ s.size
      omega)]
    have hsplit : replicate (512 * (n + 1)) (0 : UInt8) =
        replicate 512 0 ++ replicate (512 * n) 0 := by
      rw [replicate_append_replicate]
      congr 1
      omega
    rw [hsplit, store_append, length_replicate, show 512 * (start + i) + 512 = 512 * (start + (i + 1)) by ring]
    rfl

/-- The disk after a new inode and its data are written. -/
def newInode (disk : ℕ → UInt8) (sector start length : ℕ) : ℕ → UInt8 :=
  store (store disk (512 * sector) (InodeDisk.toBytes ⟨start, length, inodeMagic⟩))
    (512 * start) (List.replicate (512 * sectorsOf length) 0)

theorem inodeCreate_run_of_allocate {s : Fs} (alloc : ℕ → ℕ → Fs) {sector length : ℕ} (hm : s.MemoryOk)
    (hsize : s.size ≤ 2 ^ 31) (hsector : sector < s.size) (halloc : ∀ k cnt, (alloc k cnt).size = s.size)
    (hrun : ∀ cnt, (∃ k, (freeMapAllocate cnt).run s = .ok (some k, alloc k cnt) ∧ k + cnt ≤ s.size ∧
        ∀ j < cnt, s.freeMap.bits (k + j) = false) ∨
      ((freeMapAllocate cnt).run s = .ok (none, s) ∧
        ∀ k, k + cnt ≤ s.size → ∃ j < cnt, s.freeMap.bits (k + j) = true)) (hlen : length < 2 ^ 31) :
    (∃ start, (inodeCreate sector length).run s = .ok (true,
        (alloc start (sectorsOf length)).withDisk
          (newInode (alloc start (sectorsOf length)).disk sector start length)) ∧
      start + sectorsOf length ≤ s.size ∧ (∀ j < sectorsOf length, s.freeMap.bits (start + j) = false) ∧
      length + 511 < 2 ^ 31) ∨
    ((inodeCreate sector length).run s = .ok (false, s) ∧ (length + 511 < 2 ^ 31 →
      ∀ k, k + sectorsOf length ≤ s.size → ∃ j < sectorsOf length, s.freeMap.bits (k + j) = true)) := by
  unfold inodeCreate
  rw [if_neg (by omega), run_bind_ok (malloc_run hm), if_pos rfl]
  by_cases hbig : length + 511 < 2 ^ 31
  · rw [bytesToSectors_eq hbig]
    rcases hrun (sectorsOf length) with ⟨start, hrun, hle, hfree⟩ | ⟨hrun, hno⟩
    · refine .inl ⟨start, ?_, hle, hfree, hbig⟩
      have hsize' := halloc start (sectorsOf length)
      rw [run_bind_ok hrun]
      rw [run_bind_ok (blockWrite_run _ (by omega)),
        run_bind_ok (zeroLoop_run start _ 0 _ (by change _ ≤ (alloc start (sectorsOf length)).size; omega))]
      rfl
    · rw [run_bind_ok hrun]
      exact .inr ⟨rfl, fun _ => hno⟩
  · have hcnt : 2 ^ 31 < bytesToSectors length := lt_bytesToSectors (by omega) (by omega)
    rcases hrun (bytesToSectors length) with ⟨start, -, hle, -⟩ | ⟨hrun, -⟩
    · omega
    · rw [run_bind_ok hrun]
      exact .inr ⟨rfl, fun hsmall => absurd hsmall hbig⟩

/-- **Creation** allocates the sectors of the file and clears them, or there are none. -/
theorem inodeCreate_run {s : Fs} {file sector length : ℕ} {d : InodeDisk} (hm : s.MemoryOk)
    (hb : s.freeMap.bitCnt = s.size) (hsize : s.size ≤ 2 ^ 31) (hsector : sector < s.size)
    (hfile : s.freeMapFile = some file) (hf : MapFile s file d) (hlen : length < 2 ^ 31) :
    (∃ start, (inodeCreate sector length).run s = .ok (true,
        (s.putMap d (s.freeMap.fill start (sectorsOf length) true)).withDisk
          (newInode (s.putMap d (s.freeMap.fill start (sectorsOf length) true)).disk sector start length)) ∧
      start + sectorsOf length ≤ s.size ∧ (∀ j < sectorsOf length, s.freeMap.bits (start + j) = false) ∧
      length + 511 < 2 ^ 31) ∨
    ((inodeCreate sector length).run s = .ok (false, s) ∧ (length + 511 < 2 ^ 31 →
      ∀ k, k + sectorsOf length ≤ s.size → ∃ j < sectorsOf length, s.freeMap.bits (k + j) = true)) := by
  refine inodeCreate_run_of_allocate (fun k cnt => s.putMap d (s.freeMap.fill k cnt true)) hm hsize hsector
    (fun _ _ => rfl) (fun cnt => ?_) hlen
  rw [← hb]
  refine (freeMapAllocate_run cnt hm (by omega) hfile hf).imp ?_ id
  rintro ⟨k, hrun, hle, hfree, -⟩
  exact ⟨k, hrun, hle, hfree⟩

end Pintos
