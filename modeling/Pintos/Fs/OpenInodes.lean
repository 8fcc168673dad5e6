/-
  The open inodes and the disk (filesys/inode.c and file.c).

  Over the counts of `Counted`, an open inode is a copy of the one on disk, and it is marked removed
  when the disk does not keep it.  `OpenInv` is kept when inodes and files are opened and closed.
-/
import Pintos.Fs.Counted

namespace Pintos

open Lib Prog

/-- An open inode is the one on disk, it is removed when it is not kept, and writes to the inodes of
    the system are not denied. -/
structure InodeOk (data : ℕ → Option InodeDisk) (kept : ℕ → Prop) (n : Inode) : Prop where
  data_eq : data n.sector = some n.data
  removed_iff : n.removed = true ↔ ¬ kept n.sector
  allowed : n.sector < 2 → n.denyWriteCnt = 0

/-- The open inodes, where `refs` are the references that no file holds, `data` the inodes on disk
    and `kept` those that are not removed. -/
structure OpenInv (s : Fs) (data : ℕ → Option InodeDisk) (kept : ℕ → Prop) (refs : List ℕ) : Prop
    extends Counted s refs where
  inode : ∀ {i n}, s.inodes.get i = some n → InodeOk data kept n

section
variable {s : Fs} {data data' : ℕ → Option InodeDisk} {kept kept' : ℕ → Prop} {refs refs' : List ℕ}
  {i sector : ℕ} {n : Inode}

theorem InodeOk.congr (h : InodeOk data kept n) (hdata : data' n.sector = data n.sector)
    (hkept : kept' n.sector ↔ kept n.sector) : InodeOk data' kept' n :=
  ⟨hdata.trans h.data_eq, h.removed_iff.trans (not_congr hkept.symm), h.allowed⟩

namespace OpenInv

variable {f : File}

theorem system_file {file : ℕ} (h : OpenInv s data kept refs) (hf : s.files.get file = some f)
    (hn : s.inodes.get f.inode = some n) (hsec : n.sector < 2) : f.denyWrite = false := by
  by_contra hdeny
  have hpos := fileDenials_pos hf (Bool.eq_true_of_not_eq_false hdeny)
  have hcnt := h.denyWriteCnt_eq hn
  rw [(h.inode hn).allowed hsec] at hcnt
  omega

theorem congr {s' : Fs} (h : OpenInv s data kept refs) (ho : s'.openInodes = s.openInodes)
    (hi : s'.inodes = s.inodes) (hf : s'.files = s.files)
    (hdata : ∀ {i n}, s.inodes.get i = some n → data' n.sector = data n.sector)
    (hkept : ∀ {i n}, s.inodes.get i = some n → (kept' n.sector ↔ kept n.sector)) :
    OpenInv s' data' kept' refs where
  toCounted := h.toCounted.congr ho hi hf
  inode := by
    rw [hi]
    exact fun hn => (h.inode hn).congr (hdata hn) (hkept hn)

theorem perm (h : OpenInv s data kept refs) (hp : refs.Perm refs') : OpenInv s data kept refs' :=
  ⟨h.toCounted.perm hp, h.inode⟩

theorem set {n' : Inode} (h : OpenInv s data kept refs) (hn : s.inodes.get i = some n)
    (hcounted : Counted (s.withInodes s.openInodes (s.inodes.set i n')) refs') (hok : InodeOk data kept' n')
    (hkept : ∀ {j m}, j ≠ i → s.inodes.get j = some m → (kept' m.sector ↔ kept m.sector)) :
    OpenInv (s.withInodes s.openInodes (s.inodes.set i n')) data kept' refs' := by
  refine ⟨hcounted, fun {j m} hm => ?_⟩
  rcases Counted.get_set_cases hn hm with ⟨-, rfl⟩ | ⟨hj, hm⟩
  · exact hok
  · exact (h.inode hm).congr rfl (hkept hj hm)

theorem alloc (h : OpenInv s data kept refs) (hnew : ∀ {j m}, s.inodes.get j = some m → m.sector ≠ n.sector)
    (hcnt : n.openCnt = 1) (hdeny : n.denyWriteCnt = 0) (hok : InodeOk data kept n) :
    OpenInv (s.withInodes (s.inodes.next :: s.openInodes) (s.inodes.alloc n)) data kept (s.inodes.next :: refs) := by
  refine ⟨h.toCounted.alloc hnew hcnt hdeny, fun {j m} hm => ?_⟩
  change (s.inodes.alloc n).get j = some m at hm
  rcases eq_or_ne j s.inodes.next with rfl | hj
  · rw [Heap.get_alloc_self] at hm
    exact Option.some.inj hm ▸ hok
  · rw [Heap.get_alloc_of_ne hj] at hm
    exact h.inode hm

/-- One reference less; the disk may change for the inode that leaves memory. -/
theorem close (h : OpenInv s data kept (i :: refs)) (hn : s.inodes.get i = some n)
    (hdata : ∀ {j m}, j ≠ i ∨ n.openCnt ≠ 1 → s.inodes.get j = some m → data' m.sector = data m.sector)
    (hkept : ∀ {j m}, j ≠ i ∨ n.openCnt ≠ 1 → s.inodes.get j = some m → (kept' m.sector ↔ kept m.sector)) :
    OpenInv (s.closeInode i n) data' kept' refs := by
  refine ⟨h.toCounted.close hn, fun {j m} hm => ?_⟩
  unfold Fs.closeInode at hm
  split_ifs at hm with hlast
  · change ((s.inodes.set i _).free i).get j = some m at hm
    rw [get_free_set hn] at hm
    split_ifs at hm with hj
    exact (h.inode hm).congr (hdata (.inl hj) hm) (hkept (.inl hj) hm)
  · rcases Counted.get_set_cases hn hm with ⟨-, rfl⟩ | ⟨-, hm⟩
    · have hok := (h.inode hn).congr (hdata (.inr hlast) hn) (hkept (.inr hlast) hn)
      exact ⟨hok.data_eq, hok.removed_iff, hok.allowed⟩
    · exact (h.inode hm).congr (hdata (.inr hlast) hm) (hkept (.inr hlast) hm)

theorem openFile (h : OpenInv s data kept (i :: refs)) :
    OpenInv (s.withFiles (s.files.alloc ⟨i, 0, false⟩)) data kept refs :=
  ⟨h.toCounted.openFile, h.inode⟩

variable {k : ℕ}

theorem closeFile (h : OpenInv s data kept refs) (hf : s.files.get k = some f)
    (hw : f.denyWrite = false) : OpenInv (s.withFiles (s.files.free k)) data kept (f.inode :: refs) :=
  ⟨h.toCounted.closeFile hf hw, h.inode⟩

theorem moveFile {pos : ℕ} (h : OpenInv s data kept refs) (hf : s.files.get k = some f) :
    OpenInv (s.withFiles (s.files.set k { f with pos })) data kept refs :=
  ⟨h.toCounted.moveFile hf, h.inode⟩

theorem setDeny {b : Bool} {c : ℤ} (h : OpenInv s data kept refs) (hf : s.files.get k = some f)
    (hn : s.inodes.get f.inode = some n)
    (hc : c + (if f.denyWrite then 1 else 0) = n.denyWriteCnt + (if b then 1 else 0)) (hsys : n.sector < 2 → c = 0) :
    OpenInv (s.setDeny k f n b c) data kept refs := by
  refine ⟨h.toCounted.setDeny hf hn hc, fun {j m} hm => ?_⟩
  rcases Counted.get_set_cases hn hm with ⟨-, rfl⟩ | ⟨-, hm⟩
  · exact ⟨(h.inode hn).data_eq, (h.inode hn).removed_iff, hsys⟩
  · exact h.inode hm

end OpenInv

/-- **Opening** an inode that is kept gives a reference to it. -/
theorem inodeOpen_run (h : OpenInv s data kept refs) (hm : s.MemoryOk) (hsize : sector < s.size)
    (hdata : data sector = some (InodeDisk.ofBytes (slice s.disk (512 * sector) 512))) (hkept : kept sector) :
    ∃ i o h', (inodeOpen sector).run s = .ok (some i, s.withInodes o h') ∧
      OpenInv (s.withInodes o h') data kept (i :: refs) ∧ (s.withInodes o h').sectorAt i = some sector ∧
      ∀ j n, s.inodes.get j = some n → (s.withInodes o h').sectorAt j = some n.sector := by
  unfold inodeOpen
  rw [run_bind_get]
  rcases openLoop_run sector (fun i hi => (h.mem_iff i).1 hi) s.openInodes (List.Subset.refl _) with
    ⟨i, n, hrun, -, hn, hsec⟩ | ⟨hrun, hno⟩
  · rw [run_bind_ok hrun]
    have hok := h.inode hn
    refine ⟨i, s.openInodes, s.inodes.set i { n with openCnt := n.openCnt + 1 }, ?_, ?_, ?_, ?_⟩
    · exact inodeReopen_run hn
    · exact h.set hn (h.toCounted.reopen hn) ⟨hok.data_eq, hok.removed_iff, hok.allowed⟩ fun _ _ => Iff.rfl
    · unfold Fs.sectorAt Fs.withInodes
      rw [Heap.get_set hn, if_pos rfl, Option.map_some, hsec]
    · intro j m hj
      unfold Fs.sectorAt Fs.withInodes
      rw [Heap.get_set hn]
      split_ifs with hji
      · rw [hji, hn, Option.some.injEq] at hj
        rw [← hj]; rfl
      · rw [hj]; rfl
  · rw [run_bind_ok hrun]
    refine ⟨s.inodes.next, s.inodes.next :: s.openInodes,
      s.inodes.alloc ⟨sector, 1, false, 0, InodeDisk.ofBytes (slice s.disk (512 * sector) 512)⟩, ?_, ?_, ?_, ?_⟩
    · dsimp only
      rw [run_bind_ok (malloc_run hm), if_pos rfl, run_bind_ok (blockRead_run hsize),
        run_bind_get, run_bind_set]
      rfl
    · refine h.alloc (fun hj => ?_) rfl rfl ⟨hdata, ?_, fun _ => rfl⟩
      · exact hno _ ((h.mem_iff _).2 ⟨_, hj⟩) _ hj
      · simpa using hkept
    · unfold Fs.sectorAt Fs.withInodes
      rw [Heap.get_alloc_self]; rfl
    · intro j m hj
      unfold Fs.sectorAt Fs.withInodes
      rw [Heap.get_alloc_of_ne (Heap.lt_next hj).ne, hj]; rfl

variable {d : InodeDisk} {file : ℕ}

theorem MapFile.setInode {n' : Inode} {o : List ℕ} (hf : MapFile s file d)
    (hn : s.inodes.get i = some n) (hd : n'.data = n.data) (hw : n'.denyWriteCnt = n.denyWriteCnt) :
    MapFile (s.withInodes o (s.inodes.set i n')) file d := by
  obtain ⟨f, m, h1, h2, h3, h4⟩ := hf.isOpen
  refine ⟨?_, ⟨hf.2.1, hf.2.2, hf.2.3, hf.2.4⟩, hf.length_eq⟩
  rcases eq_or_ne f.inode i with rfl | hfi
  · rw [hn, Option.some.injEq] at h2
    refine ⟨f, n', h1, ?_, by rw [hd, h2, h3], by rw [hw, h2, h4]⟩
    change (s.inodes.set f.inode n').get f.inode = _
    rw [Heap.get_set hn, if_pos rfl]
  · refine ⟨f, m, h1, ?_, h3, h4⟩
    change (s.inodes.set i n').get f.inode = _
    rw [Heap.get_set hn, if_neg hfi, h2]

theorem MapFile.putMap (hf : MapFile s file d) (b : Bitmap)
    (hb : b.bitCnt = s.freeMap.bitCnt) : MapFile (s.putMap d b) file d :=
  ⟨hf.isOpen, ⟨hf.2.1, hf.2.2, hf.2.3, hf.2.4⟩, by rw [hf.length_eq, ← hb]; rfl⟩

theorem putMap_putMap {b b' : Bitmap} (hb : b.bitCnt = b'.bitCnt) :
    (s.putMap d b).putMap d b' = s.putMap d b' := by
  unfold Fs.putMap
  change (s.withFreeMap b').withDisk (store (store s.disk (512 * d.start) b.toBytes) _ _) = _
  rw [store_store_of_le]
  rw [Bitmap.length_toBytes, Bitmap.length_toBytes, hb]

/-- The free map without the sectors of an inode. -/
def Bitmap.without (b : Bitmap) (sector : ℕ) (data : InodeDisk) : Bitmap :=
  (b.fill sector 1 false).fill data.start (sectorsOf data.length.toNat) false

theorem inodeClose_run_removed (hm : s.MemoryOk) (hb : s.freeMap.bitCnt = s.size)
    (hsize : s.size ≤ 2 ^ 31) (hfile : s.freeMapFile = some file) (hf : MapFile s file d)
    (hn : s.inodes.get i = some n) (hrem : n.removed = true) (hlast : n.openCnt = 1)
    (hlen : 0 ≤ n.data.length ∧ n.data.length + 511 < 2 ^ 31)
    (hsec : n.sector < s.size ∧ s.freeMap.bits n.sector = true)
    (hdata : n.data.start + sectorsOf n.data.length.toNat ≤ s.size ∧ ∀ x, n.data.start ≤ x →
      x < n.data.start + sectorsOf n.data.length.toNat → x ≠ n.sector ∧ s.freeMap.bits x = true) :
    (inodeClose (some i)).run s = .ok ((), (s.putMap d (s.freeMap.without n.sector n.data)).closeInode i n) := by
  have hsectors : bytesToSectors n.data.length = sectorsOf n.data.length.toNat := by
    have hnat : bytesToSectors (n.data.length.toNat : ℤ) = sectorsOf n.data.length.toNat := bytesToSectors_eq (by omega)
    rwa [Int.toNat_of_nonneg hlen.1] at hnat
  -- the inode has left the list, but is still in memory
  set s1 := s.withInodes (s.openInodes.erase i) (s.inodes.set i { n with openCnt := n.openCnt - 1 }) with hs1
  have hf1 : MapFile s1 file d := hf.setInode hn rfl rfl
  have hrel1 : (freeMapRelease n.sector 1).run s1 =
      .ok ((), s1.putMap d (s.freeMap.fill n.sector 1 false)) := by
    refine freeMapRelease_run hm ?_ hfile hf1 ?_ fun j hj => ?_
    · change s.freeMap.bitCnt < _
      omega
    · change _ ≤ s.freeMap.bitCnt
      omega
    · obtain rfl : j = 0 := by omega
      exact hsec.2
  have hrel2 : (freeMapRelease n.data.start (bytesToSectors n.data.length)).run
      (s1.putMap d (s.freeMap.fill n.sector 1 false)) =
        .ok ((), s1.putMap d (s.freeMap.without n.sector n.data)) := by
    rw [hsectors, freeMapRelease_run (s := s1.putMap d (s.freeMap.fill n.sector 1 false)) hm ?_ hfile
      (hf1.putMap _ rfl) ?_ ?_]
    · exact congrArg (fun t => Except.ok ((), t)) (putMap_putMap rfl)
    · change s.freeMap.bitCnt < _
      omega
    · change _ ≤ s.freeMap.bitCnt
      omega
    · intro j hj
      obtain ⟨hne, hmark⟩ := hdata.2 (n.data.start + j) (by omega) (by omega)
      change (if n.sector ≤ n.data.start + j ∧ n.data.start + j < n.sector + 1 then false
        else s.freeMap.bits (n.data.start + j)) = true
      rw [if_neg (by omega), hmark]
  rw [inodeClose, run_bind_ok (getInode_run hn), run_bind_ok (setInode_run _ _ _), if_pos (by omega),
    run_bind_modify, if_pos hrem]
  change StateT.run _ s1 = _
  rw [run_bind_ok hrel1, run_bind_ok hrel2]
  unfold Fs.closeInode
  rw [if_pos hlast]
  rfl

end

end Pintos
