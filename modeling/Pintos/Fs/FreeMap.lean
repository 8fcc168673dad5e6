/-
  The free map (filesys/free-map.c).

  The free map has one bit per sector.  It is kept in memory, and a copy of it is the content of
  the file whose inode is in the sector 0; every change writes the whole map to the file.
-/
import Pintos.Fs.InodeIo

namespace Pintos

open Lib Prog List

def fileWriteAt (file : ℕ) (buffer : ℕ → UInt8) (size : ℤ) (ofs : ℕ) : FsM ℕ := do
  let f ← getFile file
  inodeWriteAt f.inode buffer size ofs

def fileReadAt (file : ℕ) (size : ℤ) (ofs : ℕ) : FsM (List UInt8) := do
  let f ← getFile file
  inodeReadAt f.inode size ofs

/-- `bitmap_write (free_map, file)`. -/
def bitmapWrite (file : ℕ) : FsM Bool := do
  let s ← get
  let written ← fileWriteAt file s.freeMap.byte (Bitmap.byteCnt s.freeMap.bitCnt) 0
  pure (written == Bitmap.byteCnt s.freeMap.bitCnt)

/-- `bitmap_read (free_map, file)`; what a short read leaves in the map is not modelled, its only
    caller panics then. -/
def bitmapRead (file : ℕ) : FsM Bool := do
  let s ← get
  if 0 < s.freeMap.bitCnt then do
    let bytes ← fileReadAt file (Bitmap.byteCnt s.freeMap.bitCnt) 0
    modify fun s => s.withFreeMap (.ofBytes s.freeMap.bitCnt bytes)
    pure (bytes.length == Bitmap.byteCnt s.freeMap.bitCnt)
  else pure true

/-- `free_map_allocate`: the first sector of the `cnt` allocated ones. -/
def freeMapAllocate (cnt : ℕ) : FsM (Option ℕ) := do
  let flipped ← onFreeMap fun b => b.scanAndFlip 0 cnt false
  modify fun s => s.withFreeMap flipped.2
  match flipped.1 with
  | none => pure none
  | some sector => do
    let s ← get
    match s.freeMapFile with
    | none => pure (some sector)
    | some file => do
      let written ← bitmapWrite file
      if written then pure (some sector)
      else do
        let b ← onFreeMap fun b => b.setMultiple sector cnt false
        modify fun s => s.withFreeMap b
        pure none

def freeMapRelease (sector cnt : ℕ) : FsM Unit := do
  let all ← onFreeMap fun b => b.all sector cnt
  if all then do
    let b ← onFreeMap fun b => b.setMultiple sector cnt false
    modify fun s => s.withFreeMap b
    let s ← get
    match s.freeMapFile with
    | none => throw .pointer
    | some file => do
      let _ ← bitmapWrite file
      pure ()
  else throw .release

/-! ## Runs -/

/-- The content of the free map file. -/
def Bitmap.toBytes (b : Bitmap) : List UInt8 := slice b.byte 0 (Bitmap.byteCnt b.bitCnt)

@[simp] theorem Bitmap.length_toBytes (b : Bitmap) : b.toBytes.length = Bitmap.byteCnt b.bitCnt := length_slice

/-- The bytes are those of the bitmap, up to the bits that are not used. -/
def HoldsMap (c : List UInt8) (b : Bitmap) : Prop :=
  c.length = Bitmap.byteCnt b.bitCnt ∧ ∀ x < b.bitCnt, (Bitmap.ofBytes b.bitCnt c).bits x = b.bits x

theorem holdsMap_toBytes (b : Bitmap) : HoldsMap b.toBytes b := by
  refine ⟨b.length_toBytes, fun x hx => b.ofBytes_bits (fun k hk => ?_) hx⟩
  unfold Bitmap.toBytes
  rw [getElem?_slice, if_pos hk, Nat.zero_add]

/-- The free map is `b`, in memory and in the file with the inode `d`. -/
def Fs.putMap (s : Fs) (d : InodeDisk) (b : Bitmap) : Fs :=
  (s.withFreeMap b).withDisk (store s.disk (512 * d.start) b.toBytes)

/-- The file is open with the inode `d` and has the size of the free map. -/
structure MapFile (s : Fs) (file : ℕ) (d : InodeDisk) : Prop where
  isOpen : ∃ f n, s.files.get file = some f ∧ s.inodes.get f.inode = some n ∧ n.data = d ∧ n.denyWriteCnt = 0
  inDevice : InDevice s d
  length_eq : d.length = Bitmap.byteCnt s.freeMap.bitCnt

variable {s : Fs} {file cnt sector : ℕ} {d : InodeDisk}

theorem MapFile.withFreeMap (hf : MapFile s file d) (b : Bitmap) (hb : b.bitCnt = s.freeMap.bitCnt) :
    MapFile (s.withFreeMap b) file d :=
  ⟨hf.isOpen, ⟨hf.2.1, hf.2.2, hf.2.3, hf.2.4⟩, by rw [hf.length_eq, ← hb]; rfl⟩

theorem bitmapWrite_run (hm : s.MemoryOk) (hf : MapFile s file d) :
    (bitmapWrite file).run s = .ok (true, s.putMap d s.freeMap) := by
  obtain ⟨f, n, hfile, hinode, rfl, hdeny⟩ := hf.isOpen
  have hwithin : within n.data.length (Bitmap.byteCnt s.freeMap.bitCnt : ℕ) 0 = Bitmap.byteCnt s.freeMap.bitCnt := by
    unfold within
    rw [hf.length_eq]
    omega
  have hwrite : (fileWriteAt file s.freeMap.byte (Bitmap.byteCnt s.freeMap.bitCnt) 0).run s =
      .ok (Bitmap.byteCnt s.freeMap.bitCnt, s.putMap n.data s.freeMap) := by
    unfold fileWriteAt
    rw [run_bind_ok (getFile_run hfile), inodeWriteAt_run hm hinode hf.inDevice hdeny, hwithin]
    rfl
  unfold bitmapWrite
  rw [run_bind_get, run_bind_ok hwrite, beq_self_eq_true]
  rfl

theorem bitmapRead_run {c : List UInt8} (hm : s.MemoryOk) (hf : MapFile s file d) (hpos : 0 < s.freeMap.bitCnt)
    (hc : c.length = Bitmap.byteCnt s.freeMap.bitCnt) (hslice : slice s.disk (512 * d.start) c.length = c) :
    (bitmapRead file).run s = .ok (true, s.withFreeMap (.ofBytes s.freeMap.bitCnt c)) := by
  obtain ⟨f, n, hfile, hinode, rfl, -⟩ := hf.isOpen
  have hcontent : Content s f.inode n c := ⟨hinode, hf.inDevice, by rw [hf.length_eq, hc], hslice⟩
  have hread : (fileReadAt file (Bitmap.byteCnt s.freeMap.bitCnt) 0).run s = .ok (c, s) := by
    unfold fileReadAt
    rw [run_bind_ok (getFile_run hfile), hcontent.read hm, drop_zero, Int.toNat_natCast, ← hc,
      take_length]
  unfold bitmapRead
  rw [run_bind_get, if_pos hpos, run_bind_ok hread, run_bind_modify,
    hc, beq_self_eq_true]
  rfl

/-- **Allocation** finds the first free sectors and marks them, or there are none. -/
theorem freeMapAllocate_run (cnt : ℕ) (hm : s.MemoryOk) (hb : s.freeMap.bitCnt < 2 ^ 32)
    (hfile : s.freeMapFile = some file) (hf : MapFile s file d) :
    (∃ k, (freeMapAllocate cnt).run s = .ok (some k, s.putMap d (s.freeMap.fill k cnt true)) ∧
      k + cnt ≤ s.freeMap.bitCnt ∧ (∀ j < cnt, s.freeMap.bits (k + j) = false) ∧
      ∀ k' < k, ∃ j < cnt, s.freeMap.bits (k' + j) = true) ∨
    ((freeMapAllocate cnt).run s = .ok (none, s) ∧
      ∀ k, k + cnt ≤ s.freeMap.bitCnt → ∃ j < cnt, s.freeMap.bits (k + j) = true) := by
  unfold freeMapAllocate
  rcases Bitmap.scanAndFlip_spec hb cnt with ⟨k, hk, hle, hfree, hfirst⟩ | ⟨hk, hno⟩
  · refine .inl ⟨k, ?_, hle, hfree, hfirst⟩
    rw [run_bind_ok (onFreeMap_run hk), run_bind_modify]
    rw [run_bind_get,
      show (s.withFreeMap (s.freeMap.fill k cnt true)).freeMapFile = some file from hfile]
    rw [run_bind_ok (bitmapWrite_run (s := s.withFreeMap (s.freeMap.fill k cnt true)) hm (hf.withFreeMap _ rfl)),
      if_pos rfl]
    rfl
  · refine .inr ⟨?_, hno⟩
    rw [run_bind_ok (onFreeMap_run hk), run_bind_modify]
    rfl

theorem freeMapAllocate_run_of_none (cnt : ℕ) (hb : s.freeMap.bitCnt < 2 ^ 32) (hfile : s.freeMapFile = none) :
    (∃ k, (freeMapAllocate cnt).run s = .ok (some k, s.withFreeMap (s.freeMap.fill k cnt true)) ∧
      k + cnt ≤ s.freeMap.bitCnt ∧ ∀ j < cnt, s.freeMap.bits (k + j) = false) ∨
    ((freeMapAllocate cnt).run s = .ok (none, s) ∧
      ∀ k, k + cnt ≤ s.freeMap.bitCnt → ∃ j < cnt, s.freeMap.bits (k + j) = true) := by
  unfold freeMapAllocate
  rcases Bitmap.scanAndFlip_spec hb cnt with ⟨k, hk, hle, hfree, -⟩ | ⟨hk, hno⟩
  · refine .inl ⟨k, ?_, hle, hfree⟩
    rw [run_bind_ok (onFreeMap_run hk), run_bind_modify]
    rw [run_bind_get,
      show (s.withFreeMap (s.freeMap.fill k cnt true)).freeMapFile = none from hfile]
    rfl
  · refine .inr ⟨?_, hno⟩
    rw [run_bind_ok (onFreeMap_run hk), run_bind_modify]
    rfl

theorem freeMapRelease_run (hm : s.MemoryOk) (hb : s.freeMap.bitCnt < 2 ^ 32)
    (hfile : s.freeMapFile = some file) (hf : MapFile s file d) (hle : sector + cnt ≤ s.freeMap.bitCnt)
    (hall : ∀ j < cnt, s.freeMap.bits (sector + j) = true) :
    (freeMapRelease sector cnt).run s = .ok ((), s.putMap d (s.freeMap.fill sector cnt false)) := by
  unfold freeMapRelease
  rw [run_bind_ok (onFreeMap_run (Bitmap.all_eq hb hle hall)), if_pos rfl,
    run_bind_ok (onFreeMap_run (Bitmap.setMultiple_eq hb hle)), run_bind_modify,
    run_bind_get,
    show (s.withFreeMap (s.freeMap.fill sector cnt false)).freeMapFile = some file from hfile]
  rw [run_bind_ok (bitmapWrite_run (s := s.withFreeMap (s.freeMap.fill sector cnt false)) hm
    (hf.withFreeMap _ rfl))]
  rfl

theorem ok_of_freeMapRelease {t : Fs} (h : (freeMapRelease sector cnt).run s = .ok ((), t)) :
    sector + cnt ≤ s.freeMap.bitCnt ∧ ∀ j < cnt, s.freeMap.bits (sector + j) = true := by
  obtain ⟨all, u, hall, h⟩ := ok_of_run_bind h
  unfold onFreeMap at hall
  rw [run_bind_get] at hall
  dsimp only at hall
  cases hb : s.freeMap.all sector cnt with
  | error e =>
    rw [hb] at hall
    cases hall
  | ok v =>
    rw [hb] at hall
    obtain ⟨rfl, -⟩ := ok_inj hall
    split_ifs at h with hv
    · rw [hv] at hb
      exact Bitmap.of_all hb
    · cases h

end Pintos
