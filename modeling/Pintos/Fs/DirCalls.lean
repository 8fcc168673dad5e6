/-
  A directory in use (filesys/directory.c).

  A directory that `dir_create` made is used through `dir_add`, `dir_remove`, `dir_lookup` and
  `dir_readdir`.
-/
import Pintos.Fs.DirSlots
import Pintos.Fs.Extents
import Pintos.Fs.Handles

namespace Pintos

open Lib Prog List

/-! ## Opening and closing inodes -/

/-- The inode of the sector is in memory. -/
def Fs.IsOpen (s : Fs) (k : ℕ) : Prop := ∃ j n, s.inodes.get j = some n ∧ n.sector = k

/-- The inode `j` of `s` is in memory in `t`, with the same data. -/
def SameInode (s t : Fs) (j : ℕ) : Prop :=
  ∀ n, s.inodes.get j = some n → ∃ n', t.inodes.get j = some n' ∧ n'.data = n.data ∧ n'.denyWriteCnt = n.denyWriteCnt

section
variable {s t : Fs} {refs : List ℕ} {i j k file : ℕ} {n : Inode} {d : InodeDisk}

theorem sameInode_set (o : List ℕ) (n' : Inode) (hn : s.inodes.get i = some n) (hd : n'.data = n.data)
    (hw : n'.denyWriteCnt = n.denyWriteCnt) (j : ℕ) : SameInode s (s.withInodes o (s.inodes.set i n')) j := by
  intro m hm
  change ∃ m', (s.inodes.set i n').get j = some m' ∧ _
  rw [Heap.get_set hn]
  split_ifs with hji
  · cases hn.symm.trans (hji ▸ hm)
    exact ⟨n', rfl, hd, hw⟩
  · exact ⟨m, hm, rfl, rfl⟩

/-- The state after `inode_open` of the sector `k` returned `i`. -/
structure OpensSector (s : Fs) (refs : List ℕ) (k i : ℕ) (t : Fs) : Prop where
  state : ∃ o h', t = s.withInodes o h'
  counted : Counted t (i :: refs)
  same : ∀ j, SameInode s t j
  inode : ∃ n, t.inodes.get i = some n ∧ n.sector = k ∧
    (s.IsOpen k ∧ n.openCnt ≠ 1 ∨ ¬ s.IsOpen k ∧ n.openCnt = 1 ∧ n.denyWriteCnt = 0 ∧ n.data = s.inodeAt k)

/-- **`inode_open`** with memory returns, if the inode is in memory or its sector is on the device. -/
theorem Counted.inodeOpen_cases (h : Counted s refs) (hm : s.MemoryOk) (k : ℕ) :
    (∃ i t, (Pintos.inodeOpen k).run s = .ok (some i, t) ∧ OpensSector s refs k i t) ∨
      (∀ x, (Pintos.inodeOpen k).run s ≠ .ok x) ∧ ¬ (s.IsOpen k ∨ k < s.size) := by
  unfold Pintos.inodeOpen
  rw [run_bind_get]
  rcases openLoop_run k (fun i hi => (h.mem_iff i).1 hi) s.openInodes (List.Subset.refl _) with
    ⟨i, n, hrun, -, hn, hsec⟩ | ⟨hrun, hno⟩
  · rw [run_bind_ok hrun]
    have hpos := h.openCnt_pos hn
    refine .inl ⟨i, _, inodeReopen_run hn, ⟨_, _, rfl⟩, h.reopen hn, sameInode_set _ _ hn rfl rfl, ?_⟩
    refine ⟨{ n with openCnt := n.openCnt + 1 }, ?_, hsec, .inl ⟨⟨i, n, hn, hsec⟩, ?_⟩⟩
    · change (s.inodes.set i _).get i = _
      rw [Heap.get_set hn, if_pos rfl]
    · change n.openCnt + 1 ≠ 1
      omega
  · have hclosed : ¬ s.IsOpen k := fun ⟨j, m, hj, hsec⟩ => hno j ((h.mem_iff j).2 ⟨m, hj⟩) m hj hsec
    rw [run_bind_ok hrun]
    rw [run_bind_ok (malloc_run hm), if_pos rfl]
    by_cases hlt : k < s.size
    · rw [run_bind_ok (blockRead_run hlt), run_bind_get, run_bind_set]
      refine .inl ⟨_, _, rfl, ⟨_, _, rfl⟩, h.alloc (fun hj => ?_) rfl rfl, fun j m hj => ⟨m, ?_, rfl, rfl⟩, ?_⟩
      · exact hno _ ((h.mem_iff _).2 ⟨_, hj⟩) _ hj
      · change (s.inodes.alloc _).get j = _
        rw [Heap.get_alloc_of_ne (Heap.lt_next hj).ne, hj]
      · exact ⟨_, Heap.get_alloc_self, rfl, .inr ⟨hclosed, rfl, rfl, rfl⟩⟩
    · refine .inr ⟨fun x hx => ?_, not_or.2 ⟨hclosed, hlt⟩⟩
      obtain ⟨data, u, hread, -⟩ := ok_of_run_bind hx
      unfold blockRead at hread
      rw [run_bind_get, if_neg hlt] at hread
      cases hread

theorem sameInode_close (h : Counted s (i :: refs)) (hn : s.inodes.get i = some n)
    (hj : j ∈ refs ∨ ∃ k f, s.files.get k = some f ∧ f.inode = j) : SameInode s (s.closeInode i n) j := by
  unfold Fs.closeInode
  split_ifs with hlast
  · intro m hm
    have hji : j ≠ i := by
      rintro rfl
      exact (h.one_lt hn hj).ne' hlast
    refine ⟨m, ?_, rfl, rfl⟩
    change ((s.inodes.set i _).free i).get j = _
    rw [get_free_set hn, if_neg hji, hm]
  · exact sameInode_set _ { n with openCnt := n.openCnt - 1 } hn rfl rfl j

/-- **`inode_close`** drops the reference, and may write the free map. -/
theorem ok_of_inodeClose (hm : s.MemoryOk) (hb : s.freeMap.bitCnt < 2 ^ 32) (hfile : s.freeMapFile = some file)
    (hf : MapFile s file d) (hn : s.inodes.get i = some n) (hrun : (inodeClose (some i)).run s = .ok ((), t)) :
    t = s.closeInode i n ∨ ∃ b, b.bitCnt = s.freeMap.bitCnt ∧ t = (s.closeInode i n).putMap d b := by
  by_cases hlast : n.removed = true ∧ n.openCnt = 1
  · obtain ⟨hrem, hlast⟩ := hlast
    rw [inodeClose, run_bind_ok (getInode_run hn), run_bind_ok (setInode_run _ _ _), if_pos (by omega),
      run_bind_modify, if_pos hrem] at hrun
    set s1 := s.withInodes (s.openInodes.erase i) (s.inodes.set i { n with openCnt := n.openCnt - 1 }) with hs1
    have hf1 : MapFile s1 file d := hf.setInode hn rfl rfl
    obtain ⟨_, s2, hrel1, hrun⟩ := ok_of_run_bind hrun
    obtain ⟨hle1, hall1⟩ := ok_of_freeMapRelease hrel1
    have hrun1 := freeMapRelease_run (s := s1) hm hb hfile hf1 hle1 hall1
    obtain ⟨-, rfl⟩ := ok_inj (hrun1.symm.trans hrel1)
    obtain ⟨_, s3, hrel2, hrun⟩ := ok_of_run_bind hrun
    obtain ⟨hle2, hall2⟩ := ok_of_freeMapRelease hrel2
    have hrun2 := freeMapRelease_run (s := s1.putMap d (s1.freeMap.fill n.sector 1 false)) hm hb hfile (hf1.putMap _ rfl)
      hle2 hall2
    obtain ⟨-, rfl⟩ := ok_inj (hrun2.symm.trans hrel2)
    obtain ⟨-, rfl⟩ := ok_inj hrun
    set b := (s.freeMap.fill n.sector 1 false).fill n.data.start (bytesToSectors n.data.length) false with hbits
    have hput : (s1.putMap d (s1.freeMap.fill n.sector 1 false)).putMap d b = s1.putMap d b := putMap_putMap rfl
    refine .inr ⟨b, rfl, (congrArg (fun s => Fs.withInodes s s.openInodes (s.inodes.free i)) hput).trans ?_⟩
    unfold Fs.closeInode
    rw [if_pos hlast]
    rfl
  · have hkeep : n.removed = false ∨ n.openCnt ≠ 1 := by
      rcases Bool.eq_false_or_eq_true n.removed with hrem | hrem
      · exact .inr fun hcnt => hlast ⟨hrem, hcnt⟩
      · exact .inl hrem
    obtain ⟨-, rfl⟩ := ok_inj ((inodeClose_run hn hkeep).symm.trans hrun)
    exact .inl rfl

end

/-! ## The calls -/

/-- A call at the position `pos`, with the position after it. -/
def DirOp.exec (dir : Dir) (pos : ℕ) : DirOp → FsM (DirResult × ℕ)
  | .add name inodeSector => do return (.bool (← dirAdd dir name inodeSector), pos)
  | .remove name => do return (.bool (← dirRemove dir name), pos)
  | .lookup name => do
    let inode ← dirLookup dir name
    let s ← get
    return (.sector (inode.bind s.sectorAt), pos)
  | .readdir => do
    let r ← dirReaddir dir pos
    return (.name r.1, r.2)

/-- Sectors are numbers of 32 bits. -/
def DirOp.SectorOk : DirOp → Prop
  | .add _ inodeSector => inodeSector < 2 ^ 32
  | _ => True

/-- A call that returns, on the state and the position. -/
def Dir.Step (dir : Dir) (x : Fs × ℕ) (call : DirOp × DirResult) (y : Fs × ℕ) : Prop :=
  call.1.SectorOk ∧ (call.1.exec dir x.2).run x.1 = .ok ((call.2, y.2), y.1)

/-- The inode of the sector can be removed: it is open, or it and its data are inside the device and marked. -/
def Fs.Removable (s : Fs) (k : ℕ) : Prop :=
  s.IsOpen k ∨ (k < s.size ∧ s.freeMap.bits k = true) ∧ (0 ≤ (s.inodeAt k).length ∧ (s.inodeAt k).length + 511 < 2 ^ 31) ∧
    (s.inodeAt k).start + sectorsOf (s.inodeAt k).length.toNat ≤ s.size ∧
      ∀ x, (s.inodeAt k).Extent x → x ≠ k ∧ s.freeMap.bits x = true

/-- The inode that a call opens or removes is there. -/
def DirOp.Ready (s : Fs) (a : DirMap) : DirOp → Prop
  | .lookup name => ∀ k, a.lookup name = some k → s.IsOpen k ∨ k < s.size
  | .remove name => ∀ k, a.lookup name = some k → s.Removable k
  | _ => True

/-- The bytes of the two files do not meet. -/
def DataApart (d : InodeDisk) (len : ℕ) (d' : InodeDisk) (len' : ℕ) : Prop :=
  len' = 0 ∨ 512 * d.start + len ≤ 512 * d'.start ∨ 512 * d'.start + len' ≤ 512 * d.start

/-- A directory of `m` slots is open and holds the map `a`; `d` is the inode of the free map file. -/
structure DirReady (dir : Dir) (m : ℕ) (d : InodeDisk) (s : Fs) (a : DirMap) : Prop where
  memory : s.MemoryOk
  size_le : s.size ≤ 2 ^ 31
  bitCnt_eq : s.freeMap.bitCnt = s.size
  mapFile : ∃ file, s.freeMapFile = some file ∧ MapFile s file d
  counted : ∃ refs, Counted s (dir.inode :: refs)
  slots : ∃ n c, Content s dir.inode n c ∧ n.denyWriteCnt = 0 ∧ Represents m c a ∧
    DataApart d (Bitmap.byteCnt s.size) n.data c.length

namespace DirReady

variable {dir : Dir} {m k pos : ℕ} {d : InodeDisk} {s t : Fs} {a : DirMap} {name : Name} {n : Inode} {c : List UInt8} {refs : List ℕ}

theorem withInodes {o : List ℕ} {h' : Heap Inode} (h : DirReady dir m d s a)
    (hc : Counted (s.withInodes o h') (dir.inode :: refs))
    (hsame : ∀ j, (j = dir.inode ∨ ∃ k f, s.files.get k = some f ∧ f.inode = j) → SameInode s (s.withInodes o h') j) :
    DirReady dir m d (s.withInodes o h') a := by
  refine ⟨h.memory, h.size_le, h.bitCnt_eq, ?_, ⟨refs, hc⟩, ?_⟩
  · obtain ⟨file, hfile, hf⟩ := h.mapFile
    obtain ⟨f, n, hget, hn, hd, hw⟩ := hf.isOpen
    obtain ⟨n', hn', hd', hw'⟩ := hsame f.inode (.inr ⟨file, f, hget, rfl⟩) n hn
    have hin := hf.inDevice
    exact ⟨file, hfile, ⟨f, n', hget, hn', hd'.trans hd, hw'.trans hw⟩, ⟨hin.1, hin.2, hin.3, hin.4⟩, hf.length_eq⟩
  · obtain ⟨n, c, hcontent, hw, hrep, hapart⟩ := h.slots
    obtain ⟨n', hn', hd, hw'⟩ := hsame dir.inode (.inl rfl) n hcontent.get
    have hin := hcontent.inDevice
    refine ⟨n', c, ⟨hn', ?_, ?_, ?_⟩, hw'.trans hw, hrep, ?_⟩
    · rw [hd]
      exact ⟨hin.1, hin.2, hin.3, hin.4⟩
    · rw [hd, hcontent.length_eq]
    · rw [hd]
      exact hcontent.slice_eq
    · rwa [hd]

theorem putMap {b : Bitmap} (h : DirReady dir m d s a) (hb : b.bitCnt = s.freeMap.bitCnt) :
    DirReady dir m d (s.putMap d b) a := by
  refine ⟨h.memory, h.size_le, hb.trans h.bitCnt_eq, ?_, ?_, ?_⟩
  · obtain ⟨file, hfile, hf⟩ := h.mapFile
    exact ⟨file, hfile, hf.putMap b hb⟩
  · obtain ⟨refs, hc⟩ := h.counted
    exact ⟨refs, hc.congr rfl rfl rfl⟩
  · obtain ⟨n, c, hcontent, hw, hrep, hapart⟩ := h.slots
    have hin := hcontent.inDevice
    refine ⟨n, c, ⟨hcontent.get, ⟨hin.1, hin.2, hin.3, hin.4⟩, hcontent.length_eq, ?_⟩, hw, hrep, hapart⟩
    refine Eq.trans ?_ hcontent.slice_eq
    rcases hapart with hzero | hapart
    · rw [hzero, slice_zero, slice_zero]
    · refine slice_store_of_disjoint ?_
      rwa [Bitmap.length_toBytes, hb, h.bitCnt_eq]

theorem write {ofs : ℕ} {l : List UInt8} {a' : DirMap} (h : DirReady dir m d s a) (hcontent : Content s dir.inode n c)
    (hw : n.denyWriteCnt = 0) (hapart : DataApart d (Bitmap.byteCnt s.size) n.data c.length) (hle : ofs + l.length ≤ c.length)
    (hrep : Represents m (overwrite c ofs l) a') :
    DirReady dir m d (s.withDisk (store s.disk (512 * n.data.start + ofs) l)) a' := by
  have hin := hcontent.inDevice
  obtain ⟨file, hfile, hf⟩ := h.mapFile
  obtain ⟨refs, hc⟩ := h.counted
  have hin' := hf.inDevice
  refine ⟨h.memory, h.size_le, h.bitCnt_eq, ⟨file, hfile, hf.isOpen, ⟨hin'.1, hin'.2, hin'.3, hin'.4⟩, hf.length_eq⟩,
    ⟨refs, hc.congr rfl rfl rfl⟩, n, overwrite c ofs l, ⟨hcontent.get, ⟨hin.1, hin.2, hin.3, hin.4⟩, ?_, ?_⟩, hw, hrep, ?_⟩
  · rw [length_overwrite hle, hcontent.length_eq]
  · rw [length_overwrite hle]
    refine (slice_store_within hle).trans ?_
    rw [hcontent.slice_eq]
  · rwa [length_overwrite hle]

/-! ### Adding and listing -/

theorem add (h : DirReady dir m d s a) (name : Name) (hk : k < 2 ^ 32) :
    ∃ b t a', (dirAdd dir name k).run s = .ok (b, t) ∧ DirMap.Step m a (.add name k, .bool b) a' ∧ DirReady dir m d t a' := by
  obtain ⟨n, c, hcontent, hw, hrep, hapart⟩ := h.slots
  rcases dirAdd_cases dir h.memory hcontent hw hrep.length_eq name k with
    ⟨j, hj, hfree, hne, hlen, hno, hrun⟩ | ⟨hno, l, hl, hrun⟩
  · have hnew : name ∉ a := by
      rw [hrep.mem_iff]
      rintro ⟨j', hj', hname⟩
      rw [hno j' hj'] at hname
      cases hname
    have hname : ((entryAt c j).renew name k).name.length = 15 :=
      length_strlcpy hlen (length_name_ofBytes (length_entry hrep.le_length hj))
    refine ⟨true, _, a.insert name k, hrun, .add hne hlen hnew (hrep.card_lt_iff.2 ⟨j, hj, hfree⟩),
      h.write hcontent hw hapart ?_ (hrep.insert hj hfree hne hlen hnew hk)⟩
    have := hrep.le_length
    rw [DirEntry.length_toBytes hname]
    omega
  · refine ⟨false, _, a, hrun, .add_fails fun hadd => hno (hrep.addable_iff.2 hadd), h.write hcontent hw hapart hl ?_⟩
    exact hrep.overwrite_tail hl

variable {p : ℕ}

theorem readdir (h : DirReady dir m d s a) (hp : p ≤ m) :
    ∃ r, ∃ q ≤ m, (dirReaddir dir (20 * p)).run s = .ok ((r, 20 * q), s) ∧ DirMap.Step m a (.readdir, .name r) a := by
  obtain ⟨n, c, hcontent, -, hrep, -⟩ := h.slots
  have hrun := readdir_run h.memory hcontent hrep.length_eq (show p + (m - p) = m by omega)
  obtain ⟨q, hq, hnext | ⟨name, hname, hnext⟩⟩ := hrep.nextName_cases (show p + (m - p) = m by omega)
  · rw [hnext] at hrun
    exact ⟨none, q, hq, hrun, .readdir_end⟩
  · rw [hnext] at hrun
    exact ⟨some name.val, q, hq, hrun, .readdir hname⟩

/-! ### Opening and removing inodes -/

theorem lookup_cases (h : DirReady dir m d s a) (name : Name) :
    (∃ n c j, Content s dir.inode n c ∧ n.denyWriteCnt = 0 ∧ Represents m c a ∧ DataApart d (Bitmap.byteCnt s.size) n.data c.length ∧
      j < m ∧ (entryAt c j).hasName name = true ∧ a.lookup name = some (entryAt c j).inodeSector ∧
      (Pintos.lookup dir name).run s = .ok (some (entryAt c j, 20 * j), s)) ∨
    a.lookup name = none ∧ (Pintos.lookup dir name).run s = .ok (none, s) := by
  obtain ⟨n, c, hcontent, hw, hrep, hapart⟩ := h.slots
  rcases lookup_run dir h.memory hcontent hrep.length_eq name with ⟨j, hj, hname, hrun⟩ | ⟨hno, hrun⟩
  · obtain ⟨huse, hcstr⟩ := hasName_iff.1 hname
    exact .inl ⟨n, c, j, hcontent, hw, hrep, hapart, hj, hname, (hrep.lookup_iff _ _).2 ⟨j, hj, huse, hcstr, rfl⟩, hrun⟩
  · refine .inr ⟨?_, hrun⟩
    rw [Finmap.lookup_eq_none, hrep.mem_iff]
    rintro ⟨j, hj, hname⟩
    rw [hno j hj] at hname
    cases hname

variable {i : ℕ}

theorem opensSector (h : DirReady dir m d s a) (hopen : OpensSector s (dir.inode :: refs) k i t) : DirReady dir m d t a := by
  have hsame := hopen.same
  have hc := hopen.counted
  obtain ⟨o, h', rfl⟩ := hopen.state
  exact h.withInodes (hc.perm (List.Perm.swap _ _ _)) fun j _ => hsame j

theorem lookup (h : DirReady dir m d s a) (name : Name) :
    (∃ r t, (dirLookup dir name).run s = .ok (r, t) ∧ r.bind t.sectorAt = a.lookup name ∧ DirReady dir m d t a) ∨
      (∀ x, (dirLookup dir name).run s ≠ .ok x) ∧ ∃ k, a.lookup name = some k ∧ ¬ (s.IsOpen k ∨ k < s.size) := by
  unfold dirLookup
  rcases h.lookup_cases name with ⟨n, c, j, -, -, -, -, -, -, hbound, hrun⟩ | ⟨hnone, hrun⟩
  · obtain ⟨refs, hc⟩ := h.counted
    rw [run_bind_ok hrun, hbound]
    rcases hc.inodeOpen_cases h.memory (entryAt c j).inodeSector with ⟨i, t, hopen, hopens⟩ | ⟨hno, hk⟩
    · obtain ⟨n', hn', hsec, -⟩ := hopens.inode
      refine .inl ⟨some i, t, hopen, ?_, h.opensSector hopens⟩
      unfold Fs.sectorAt
      rw [Option.bind_some, hn', Option.map_some, hsec]
    · exact .inr ⟨hno, _, rfl, hk⟩
  · rw [run_bind_ok hrun, hnone]
    exact .inl ⟨none, s, rfl, rfl, h⟩

/-- The state in which `dir_remove` closes the inode `i` that it removed. -/
structure Removes (dir : Dir) (m : ℕ) (d : InodeDisk) (s : Fs) (a : DirMap) (k i : ℕ) (t : Fs) : Prop where
  ready : DirReady dir m d t a
  counted : ∃ refs, Counted t (i :: dir.inode :: refs)
  size : t.size = s.size
  freeMap : t.freeMap = s.freeMap
  inode : ∃ n, t.inodes.get i = some n ∧ n.removed = true ∧ n.sector = k ∧
    (s.IsOpen k ∧ n.openCnt ≠ 1 ∨ ¬ s.IsOpen k ∧ n.openCnt = 1 ∧ n.data = s.inodeAt k)

theorem remove_cases (h : DirReady dir m d s a) (name : Name) :
    (∃ k i t, a.lookup name = some k ∧ Removes dir m d s (a.erase name) k i t ∧
      (dirRemove dir name).run s = (do inodeClose (some i); return true : FsM Bool).run t) ∨
    (a.lookup name = none ∧ (dirRemove dir name).run s = .ok (false, s)) ∨
    (∀ x, (dirRemove dir name).run s ≠ .ok x) ∧ ∃ k, a.lookup name = some k ∧ ¬ (s.IsOpen k ∨ k < s.size) := by
  unfold dirRemove
  rcases h.lookup_cases name with ⟨n, c, j, hcontent, hw, hrep, hapart, hj, hname, hbound, hrun⟩ | ⟨hnone, hrun⟩
  · obtain ⟨refs, hc⟩ := h.counted
    rw [run_bind_ok hrun, hbound]
    rcases hc.inodeOpen_cases h.memory (entryAt c j).inodeSector with ⟨i, s1, hopen, hopens⟩ | ⟨hno, hk⟩
    · -- the directory is written in the state in which the inode is open
      have h₁ := h.opensSector hopens
      obtain ⟨n1, hn1, hsec, hcnt⟩ := hopens.inode
      obtain ⟨nd, hnd, hdata, hdeny⟩ := hopens.same dir.inode n hcontent.get
      have hcounted := hopens.counted
      obtain ⟨o, h', rfl⟩ := hopens.state
      set s1 := s.withInodes o h' with hs1
      have hin := hcontent.inDevice
      have hcontent1 : Content s1 dir.inode nd c := by
        refine ⟨hnd, ?_, ?_, ?_⟩
        · rw [hdata]
          exact ⟨hin.1, hin.2, hin.3, hin.4⟩
        · rw [hdata, hcontent.length_eq]
        · rw [hdata]
          exact hcontent.slice_eq
      have hlen : (entryAt c j).unused.name.length = 15 := length_name_ofBytes (length_entry hrep.le_length hj)
      have hwrite := writeEntry_run h₁.memory hcontent1 (hdeny.trans hw) hrep.le_length hj hlen
      have h₂ := h₁.write hcontent1 (hdeny.trans hw) (hdata.symm ▸ hapart)
        (by have := hrep.le_length; rw [DirEntry.length_toBytes hlen]; omega) (hrep.erase hj hname)
      set s2 := s1.withDisk (store s1.disk (512 * nd.data.start + 20 * j) (entryAt c j).unused.toBytes) with hs2
      have hc2 : Counted s2 (i :: dir.inode :: refs) := hcounted.congr rfl rfl rfl
      have hn2 : s2.inodes.get i = some n1 := hn1
      have hc3 := hc2.remove hn2
      refine .inl ⟨_, i, _, rfl, ⟨h₂.withInodes (hc3.perm (List.Perm.swap _ _ _)) fun l _ => ?_, ⟨refs, hc3⟩, rfl, rfl, ?_⟩, ?_⟩
      · exact sameInode_set _ { n1 with removed := true } hn2 rfl rfl l
      · refine ⟨{ n1 with removed := true }, ?_, rfl, hsec, ?_⟩
        · change (s2.inodes.set i _).get i = _
          rw [Heap.get_set hn2, if_pos rfl]
        · exact hcnt.imp id fun hlast => ⟨hlast.1, hlast.2.1, hlast.2.2.2⟩
      · rw [run_bind_ok hopen]
        rw [run_bind_ok hwrite, if_pos rfl, run_bind_ok (inodeRemove_run hn2)]
    · refine .inr (.inr ⟨fun x hx => ?_, _, rfl, hk⟩)
      obtain ⟨r, u, hopen, -⟩ := ok_of_run_bind hx
      exact hno _ hopen
  · rw [run_bind_ok hrun, hnone]
    exact .inr (.inl ⟨rfl, rfl⟩)

theorem Removes.close (h : Removes dir m d s a k i t) {u : Fs} (hrun : (inodeClose (some i)).run t = .ok ((), u)) :
    DirReady dir m d u a := by
  obtain ⟨file, hfile, hf⟩ := h.ready.mapFile
  obtain ⟨refs, hc⟩ := h.counted
  obtain ⟨n, hn, -⟩ := h.inode
  have hb : t.freeMap.bitCnt < 2 ^ 32 := by
    have := h.ready.size_le
    rw [h.ready.bitCnt_eq]
    omega
  have hclosed : DirReady dir m d (t.closeInode i n) a := by
    have hc' := hc.close hn
    have hsame := fun j hj => sameInode_close (j := j) hc hn hj
    obtain ⟨o, h', he⟩ := closeInode_eq t i n
    rw [he] at hc' hsame ⊢
    refine h.ready.withInodes hc' fun j hj => hsame j (hj.imp_left ?_)
    rintro rfl
    exact mem_cons_self
  have hbits : (t.closeInode i n).freeMap = t.freeMap := by
    obtain ⟨o, h', he⟩ := closeInode_eq t i n
    rw [he]
    rfl
  rcases ok_of_inodeClose h.ready.memory hb hfile hf hn hrun with rfl | ⟨b, hbit, rfl⟩
  · exact hclosed
  · exact hclosed.putMap (by rw [hbit, hbits])

theorem Removes.close_run (h : Removes dir m d s a k i t) (hk : s.Removable k) :
    ∃ u, (inodeClose (some i)).run t = .ok ((), u) := by
  obtain ⟨file, hfile, hf⟩ := h.ready.mapFile
  obtain ⟨n, hn, hrem, hsec, ⟨-, hcnt⟩ | ⟨hclosed, hcnt, hdata⟩⟩ := h.inode
  · exact ⟨_, inodeClose_run hn (.inr hcnt)⟩
  · obtain ⟨hsector, hlen, hle, hmarked⟩ := hk.resolve_left hclosed
    refine ⟨_, inodeClose_run_removed h.ready.memory h.ready.bitCnt_eq h.ready.size_le hfile hf hn hrem hcnt ?_ ?_ ?_⟩
    · rwa [hdata]
    · rwa [hsec, h.size, h.freeMap]
    · rw [hdata, hsec, h.size, h.freeMap]
      exact ⟨hle, fun x h1 h2 => hmarked x ⟨h1, h2⟩⟩

/-! ### One call -/

/-- **A call that returns** is one of the map. -/
theorem step {call : DirOp × DirResult} {y : Fs × ℕ} (h : DirReady dir m d s a) (hp : p ≤ m)
    (hstep : Dir.Step dir (s, 20 * p) call y) :
    ∃ a', DirMap.Step m a call a' ∧ DirReady dir m d y.1 a' ∧ ∃ q ≤ m, y.2 = 20 * q := by
  obtain ⟨op, r⟩ := call
  obtain ⟨t, pos'⟩ := y
  obtain ⟨hsector, hrun⟩ := hstep
  cases op with
  | add name k =>
    obtain ⟨b, t', a', hadd, hmap, hready⟩ := h.add name hsector
    have hexec := (run_bind_ok hadd).symm.trans hrun
    obtain ⟨hres, rfl⟩ := ok_inj hexec
    obtain ⟨rfl, rfl⟩ := Prod.mk.inj hres
    exact ⟨a', hmap, hready, p, hp, rfl⟩
  | remove name =>
    obtain ⟨b, u, hremove, hret⟩ := ok_of_run_bind hrun
    obtain ⟨hres, rfl⟩ := ok_inj hret
    obtain ⟨rfl, rfl⟩ := Prod.mk.inj hres
    rcases h.remove_cases name with ⟨k, i, t', hbound, hremoves, heq⟩ | ⟨hnone, heq⟩ | ⟨hno, -⟩
    · rw [heq] at hremove
      obtain ⟨_, v, hclose, hret⟩ := ok_of_run_bind hremove
      cases hret
      refine ⟨a.erase name, .remove ?_, hremoves.close hclose, p, hp, rfl⟩
      rw [← Finmap.lookup_isSome, hbound]
      rfl
    · obtain ⟨rfl, rfl⟩ := ok_inj (heq.symm.trans hremove)
      exact ⟨a, .remove_fails (Finmap.lookup_eq_none.1 hnone), h, p, hp, rfl⟩
    · exact absurd hremove (hno _)
  | lookup name =>
    obtain ⟨r', u, hlookup, hret⟩ := ok_of_run_bind hrun
    obtain ⟨hres, rfl⟩ := ok_inj hret
    obtain ⟨rfl, rfl⟩ := Prod.mk.inj hres
    rcases h.lookup name with ⟨r, t', heq, hsec, hready⟩ | ⟨hno, -⟩
    · obtain ⟨rfl, rfl⟩ := ok_inj (heq.symm.trans hlookup)
      rw [hsec]
      exact ⟨a, .lookup, hready, p, hp, rfl⟩
    · exact absurd hlookup (hno _)
  | readdir =>
    obtain ⟨r', q, hq, hread, hmap⟩ := h.readdir hp
    have hexec := (run_bind_ok hread).symm.trans hrun
    obtain ⟨hres, rfl⟩ := ok_inj hexec
    obtain ⟨rfl, rfl⟩ := Prod.mk.inj hres
    exact ⟨a, hmap, h, q, hq, rfl⟩

/-- **Calls return**, if the inodes they open or remove are there. -/
theorem complete {op : DirOp} (h : DirReady dir m d s a) (hp : p ≤ m) (hsector : op.SectorOk) (hop : op.Ready s a) :
    ∃ r y, Dir.Step dir (s, 20 * p) (op, r) y := by
  cases op with
  | add name k =>
    obtain ⟨b, t, -, hadd, -⟩ := h.add name hsector
    exact ⟨.bool b, (t, 20 * p), hsector, (run_bind_ok hadd).trans rfl⟩
  | remove name =>
    rcases h.remove_cases name with ⟨k, i, t, hbound, hremoves, heq⟩ | ⟨-, heq⟩ | ⟨-, k, hbound, hno⟩
    · obtain ⟨u, hclose⟩ := hremoves.close_run (hop k hbound)
      have hremove : (dirRemove dir name).run s = .ok (true, u) := heq.trans (run_bind_ok hclose)
      exact ⟨.bool true, (u, 20 * p), hsector, (run_bind_ok hremove).trans rfl⟩
    · exact ⟨.bool false, (s, 20 * p), hsector, (run_bind_ok heq).trans rfl⟩
    · exact absurd ((hop k hbound).imp_right fun hk => hk.1.1) hno
  | lookup name =>
    rcases h.lookup name with ⟨r, t, heq, -⟩ | ⟨-, k, hbound, hno⟩
    · exact ⟨.sector (r.bind t.sectorAt), (t, 20 * p), hsector, (run_bind_ok heq).trans rfl⟩
    · exact absurd (hop k hbound) hno
  | readdir =>
    obtain ⟨r, q, -, hread, -⟩ := h.readdir hp
    exact ⟨.name r, (s, 20 * q), hsector, (run_bind_ok hread).trans rfl⟩

end DirReady

/-! ## A new directory -/

/-- The slots of a directory that is created for `entryCnt` entries; see `dirCreate` for its size. -/
def slotsOf (entryCnt : ℕ) : ℕ := (Int.bmod (entryCnt * 20 : ℕ) (2 ^ 32)).toNat / 20

theorem slotsOf_eq {entryCnt : ℕ} (h : entryCnt * 20 < 2 ^ 31) : slotsOf entryCnt = entryCnt := by
  unfold slotsOf
  rw [Int.bmod_eq_of_le (by omega) (by omega)]
  omega

/-- The sector can take a new inode: it is marked and no inode in memory has it, and the free map file is
    open and its sectors are marked. -/
structure NewSector (s : Fs) (k : ℕ) : Prop where
  memory : s.MemoryOk
  size_le : s.size ≤ 2 ^ 31
  bitCnt_eq : s.freeMap.bitCnt = s.size
  lt : k < s.size
  marked : s.freeMap.bits k = true
  closed : ¬ s.IsOpen k
  counted : ∃ refs, Counted s refs
  mapFile : ∃ file d, s.freeMapFile = some file ∧ MapFile s file d ∧ ∀ x, d.Extent x → s.freeMap.bits x = true

section
variable {s t s1 : Fs} {k entryCnt : ℕ} {dir : Dir}

theorem Fs.Formatted.newSector (h : s.Formatted) (halloc : (freeMapAllocate 1).run s = .ok (some k, t)) : NewSector t k := by
  obtain ⟨a, nodes, hrel⟩ := h.sim
  rcases hrel.inv.allocate 1 with ⟨k', t', nodes', hrun, h', -, hsize, hle, hown, -⟩ | hrun
  · obtain ⟨hk, rfl⟩ := ok_inj (hrun.symm.trans halloc)
    obtain rfl := Option.some.inj hk
    obtain ⟨-, hmark, hun, -⟩ := hown k' le_rfl (Nat.lt_succ_self k')
    obtain ⟨map, hmap, -⟩ := h'.mapNode
    obtain ⟨file, hfile, hf⟩ := h'.mapFile_ok hmap
    refine ⟨h'.memory, h'.size_le, h'.bitCnt_eq, ?_, hmark, ?_, ⟨[], h'.opened.toCounted⟩, file, map.data, hfile, hf, ?_⟩
    · omega
    · rintro ⟨j, n, hn, hsec⟩
      obtain ⟨nd, hnd, -⟩ := h'.node hn
      exact (hun _ _ hnd).1 hsec
    · exact fun x hx => h'.layout.data_marked hmap hx
  · cases hrun.symm.trans halloc

/-- **`dir_create`** makes an empty directory. -/
theorem dirReady_of_create (h : NewSector s k) (hcreate : (dirCreate k entryCnt).run s = .ok (true, s1))
    (hopen : (do dirOpen (← inodeOpen k) : FsM (Option Dir)).run s1 = .ok (some dir, t)) :
    ∃ d, DirReady dir (slotsOf entryCnt) d t ∅ := by
  obtain ⟨file, d, hfile, hf, hmap⟩ := h.mapFile
  obtain ⟨refs, hc⟩ := h.counted
  have hbound : Int.bmod (entryCnt * 20 : ℕ) (2 ^ 32) < 2 ^ 31 := by
    have := Int.bmod_lt (x := ((entryCnt * 20 : ℕ) : ℤ)) (m := 2 ^ 32) (by decide)
    omega
  unfold dirCreate at hcreate
  unfold slotsOf
  generalize Int.bmod (entryCnt * 20 : ℕ) (2 ^ 32) = len at hcreate hbound
  rcases lt_or_ge len 0 with hneg | hpos
  · unfold inodeCreate at hcreate
    rw [if_pos hneg] at hcreate
    cases hcreate
  obtain ⟨len, rfl⟩ := Int.eq_ofNat_of_zero_le hpos
  rcases inodeCreate_run h.memory h.bitCnt_eq h.size_le h.lt hfile hf (show len < 2 ^ 31 by omega) with
    ⟨start, hrun, hle, hfree, -⟩ | ⟨hrun, -⟩
  swap
  · cases hrun.symm.trans hcreate
  obtain ⟨-, rfl⟩ := ok_inj (hrun.symm.trans hcreate)
  set b := s.freeMap.fill start (sectorsOf len) true with hb
  set s1 := (s.putMap d b).withDisk (newInode (s.putMap d b).disk k start len) with hs1
  -- what is on the disk
  have hself : ¬ (start ≤ k ∧ k < start + sectorsOf len) := by
    rintro ⟨h1, h2⟩
    have := hfree (k - start) (by omega)
    rw [Nat.add_sub_cancel' h1, h.marked] at this
    cases this
  have hstored : Stored s1.disk k ⟨start, replicate len 0⟩ := by
    have hnone : AllStored (s.putMap d b).disk fun _ => none := nofun
    exact hnone.insert nofun nofun hself k _ (Function.update_self ..)
  have hsize := h.size_le
  have hinode : s1.inodeAt k = ⟨start, len, inodeMagic⟩ := by
    unfold Fs.inodeAt
    rw [hstored.inode]
    unfold Node.data
    rw [length_replicate]
    refine InodeDisk.ofBytes_toBytes (by change start < _; omega) (by change (0 : ℤ) ≤ len; omega) (by change (len : ℤ) < _; omega) ?_
    change inodeMagic < _
    decide
  -- it is opened
  have hc1 : Counted s1 refs := hc.congr rfl rfl rfl
  obtain ⟨r, u, hr, hdir⟩ := ok_of_run_bind hopen
  rcases hc1.inodeOpen_cases h.memory k with ⟨i, s2, hrun, hopens⟩ | ⟨hno, -⟩
  swap
  · exact absurd hr (hno _)
  obtain ⟨rfl, rfl⟩ := ok_inj (hrun.symm.trans hr)
  have hmem : s2.MemoryOk := by
    obtain ⟨o, h', rfl⟩ := hopens.state
    exact h.memory
  unfold dirOpen at hdir
  rw [run_bind_ok (malloc_run hmem)] at hdir
  obtain ⟨hsome, rfl⟩ := ok_inj hdir
  cases hsome
  obtain ⟨n, hn, -, ⟨hk, -⟩ | ⟨-, -, hw, hdata⟩⟩ := hopens.inode
  · exact absurd hk h.closed
  rw [hinode] at hdata
  have hcounted := hopens.counted
  have hsame := hopens.same
  obtain ⟨o, h', rfl⟩ := hopens.state
  refine ⟨d, hmem, h.size_le, h.bitCnt_eq, ⟨file, hfile, ?_⟩, ⟨refs, hcounted⟩, n, replicate len 0,
    ⟨hn, ?_, ?_, ?_⟩, hw, ?_, ?_⟩
  · obtain ⟨f, m, hget, hm, hd, hw⟩ := hf.isOpen
    obtain ⟨m', hm', hd', hw'⟩ := hsame f.inode m hm
    have hin := hf.inDevice
    exact ⟨⟨f, m', hget, hm', hd'.trans hd, hw'.trans hw⟩, ⟨hin.1, hin.2, hin.3, hin.4⟩, hf.length_eq⟩
  · rw [hdata]
    refine ⟨by change (0 : ℤ) ≤ len; omega, by change (len : ℤ) < _; omega, ?_, ?_⟩
    · change start + sectorsOf (len : ℤ).toNat ≤ s.size
      rwa [Int.toNat_natCast]
    · change s.size < _
      omega
  · rw [hdata, length_replicate]
  · rw [hdata]
    exact hstored.content
  · rw [Int.toNat_natCast]
    exact Represents.empty len
  · rw [hdata, length_replicate]
    -- the sectors of the free map were marked, those of the directory were not
    rcases Nat.eq_zero_or_pos len with hzero | hlen
    · exact .inl hzero
    · have hmapLen : Bitmap.byteCnt s.size ≤ 512 * sectorsOf d.length.toNat := by
        rw [hf.length_eq, h.bitCnt_eq, Int.toNat_natCast]
        unfold sectorsOf
        omega
      have hdirLen : len ≤ 512 * sectorsOf len := by
        unfold sectorsOf
        omega
      have hpos : 0 < Bitmap.byteCnt s.size := by
        unfold Bitmap.byteCnt Bitmap.elemCnt
        omega
      have hmeet : ¬ (d.start < start + sectorsOf len ∧ start < d.start + sectorsOf d.length.toNat) := by
        rintro ⟨h1, h2⟩
        have hmarked := hmap (max d.start start) ⟨by omega, by omega⟩
        have := hfree (max d.start start - start) (by omega)
        rw [Nat.add_sub_cancel' (by omega), hmarked] at this
        cases this
      refine .inr ?_
      change 512 * d.start + Bitmap.byteCnt s.size ≤ 512 * start ∨ 512 * start + len ≤ 512 * d.start
      omega

end

/-! ## Runs -/

/-- The bytes of a directory that is open. -/
def Dir.content (dir : Dir) (s : Fs) : List UInt8 :=
  match s.inodes.get dir.inode with
  | some n => slice s.disk (512 * n.data.start) n.data.length.toNat
  | none => []

/-- The directory of `m` slots is the map `a`: its slots hold it, no two of them the same name; calls
    return; and listing it from its start gives each name once. -/
structure DirAgrees (dir : Dir) (m : ℕ) (s : Fs) (pos : ℕ) (a : DirMap) : Prop where
  slots : (dir.content s).length / 20 = m
  distinct : DistinctNames m (dir.content s)
  bound : ∀ name k, a.lookup name = some k ↔ ∃ j < m, (entryAt (dir.content s) j).Binds name.val k
  complete : ∀ op : DirOp, op.SectorOk → op.Ready s a → ∃ r y, Dir.Step dir (s, pos) (op, r) y
  scan : ∃ l : List Name, Scans dir s 0 (l.map Subtype.val) ∧ l.Nodup ∧ ∀ name, name ∈ l ↔ name ∈ a

section
variable {s s1 s2 : Fs} {k entryCnt m p : ℕ} {d : InodeDisk} {dir : Dir} {a : DirMap}

theorem DirReady.agrees (h : DirReady dir m d s a) (hp : p ≤ m) : DirAgrees dir m s (20 * p) a := by
  obtain ⟨n, c, hcontent, -, hrep, -⟩ := h.slots
  have hbytes : dir.content s = c := by
    unfold Dir.content
    rw [hcontent.get]
    dsimp only
    rw [hcontent.length_eq, Int.toNat_natCast, hcontent.slice_eq]
  refine ⟨?_, ?_, ?_, fun op hsector hop => h.complete hp hsector hop, hrep.scans h.memory hcontent⟩
  · rw [hbytes, hrep.length_eq]
  · rw [hbytes]
    exact hrep.distinct
  · rw [hbytes]
    exact hrep.lookup_iff

/-- The directory holds the map, and its position is that of a slot. -/
def DirReadyAt (dir : Dir) (m : ℕ) (d : InodeDisk) (x : Fs × ℕ) (a : DirMap) : Prop :=
  DirReady dir m d x.1 a ∧ ∃ p ≤ m, x.2 = 20 * p

theorem dirStep_simulates : Simulates (Dir.Step dir) (DirMap.Step m) (DirReadyAt dir m d) := by
  rintro ⟨s, pos⟩ a call y ⟨hready, p, hp, rfl⟩ hstep
  exact hready.step hp hstep

/-- **A directory is a finite map.**  Every sequence of calls on a directory that was created is one on
    the empty map, which it agrees with in every state reached. -/
theorem dir_refines_map (h : NewSector s k) (hcreate : (dirCreate k entryCnt).run s = .ok (true, s1))
    (hopen : (do dirOpen (← inodeOpen k) : FsM (Option Dir)).run s1 = .ok (some dir, s2)) :
    ∀ calls t pos, Runs (Dir.Step dir) (s2, 0) calls (t, pos) →
      ∃ a, Runs (DirMap.Step (slotsOf entryCnt)) ∅ calls a ∧ DirAgrees dir (slotsOf entryCnt) t pos a := by
  intro calls t pos hruns
  obtain ⟨d, hready⟩ := dirReady_of_create h hcreate hopen
  have hsim : Simulates (Dir.Step dir) (DirMap.Step (slotsOf entryCnt)) (DirReadyAt dir (slotsOf entryCnt) d) := dirStep_simulates
  have hstart : DirReadyAt dir (slotsOf entryCnt) d (s2, 0) ∅ := ⟨hready, 0, Nat.zero_le _, rfl⟩
  obtain ⟨a, hmap, hready, p, hp, rfl⟩ := hruns.simulate @hsim hstart
  exact ⟨a, hmap, hready.agrees hp⟩

theorem dir_refines_map_add : ∃ s s1 s2 dir r y a, (freeMapAllocate 1).run Files.twoFiles = .ok (some 8, s) ∧
    (dirCreate 8 2).run s = .ok (true, s1) ∧ (do dirOpen (← inodeOpen 8) : FsM (Option Dir)).run s1 = .ok (some dir, s2) ∧
    Dir.Step dir (s2, 0) (.add Files.nameA 5, r) y ∧ Runs (DirMap.Step 2) ∅ [(.add Files.nameA 5, r)] a ∧ DirAgrees dir 2 y.1 y.2 a := by
  have hrun : ((do
      let k ← freeMapAllocate 1
      let created ← dirCreate 8 2
      let dir ← dirOpen (← inodeOpen 8)
      return (k, created, dir.isSome) : FsM (Option ℕ × Bool × Bool)).run Files.twoFiles).toOption.map Prod.fst =
        some (some 8, true, true) := by decide +kernel
  cases hprog : (do
      let k ← freeMapAllocate 1
      let created ← dirCreate 8 2
      let dir ← dirOpen (← inodeOpen 8)
      return (k, created, dir.isSome) : FsM (Option ℕ × Bool × Bool)).run Files.twoFiles with
  | error e =>
    rw [hprog] at hrun
    cases hrun
  | ok x =>
    obtain ⟨res, u⟩ := x
    rw [hprog] at hrun
    obtain rfl : res = (some 8, true, true) := Option.some.inj hrun
    obtain ⟨k, s, halloc, hprog⟩ := ok_of_run_bind hprog
    obtain ⟨created, s1, hcreate, hprog⟩ := ok_of_run_bind hprog
    obtain ⟨i, s', hinode, hprog⟩ := ok_of_run_bind hprog
    obtain ⟨dir, s2, hdir, hprog⟩ := ok_of_run_bind hprog
    obtain ⟨hres, rfl⟩ := ok_inj hprog
    obtain ⟨hk, hres⟩ := Prod.mk.inj hres
    obtain ⟨hcreated, hsome⟩ := Prod.mk.inj hres
    obtain ⟨dir, rfl⟩ := Option.isSome_iff_exists.1 hsome
    rw [hk] at halloc
    rw [hcreated] at hcreate
    have hopen := (run_bind_ok (f := dirOpen) hinode).trans hdir
    have h := dir_refines_map (Files.twoFiles_formatted.newSector halloc) hcreate hopen
    rw [slotsOf_eq (by decide)] at h
    obtain ⟨a0, -, hagrees⟩ := h [] s2 0 .nil
    obtain ⟨r, y, hstep⟩ := hagrees.complete (.add Files.nameA 5) (by decide : 5 < 2 ^ 32) trivial
    obtain ⟨a, hmap, hagrees⟩ := h _ y.1 y.2 (.cons hstep .nil)
    exact ⟨s, s1, s2, dir, r, y, a, halloc, hcreate, hopen, hstep, hmap, hagrees⟩

end

end Pintos
