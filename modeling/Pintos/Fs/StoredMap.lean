/-
  The free map and its file (filesys/free-map.c) when memory is missing.

  Every change of the free map writes the whole map to its file.  The write needs a bounce buffer unless the
  length of the file is a multiple of the sector size; without one only the whole sectors are written, which
  hold the bits of the sectors below `wholeBits`.  `free_map_allocate` then takes its change back in memory
  but not in the file, and `free_map_release` does not look at the result.
-/
import Pintos.Fs.Extents
import Pintos.Fs.Scarce

namespace Pintos

open Lib Prog List

/-! ## Bits and bytes -/

section
variable {b b' : Bitmap} {l : List UInt8} {k m x : ℕ}

theorem Bitmap.eq_byte {v : UInt8} (h : ∀ j < 8, v.toNat / 2 ^ j % 2 = (b.bits (8 * k + j)).toNat) : v = b.byte k := by
  have hbyte : ∀ j < 8, v.toNat / 2 ^ j % 2 = (b.byte k).toNat / 2 ^ j % 2 := fun j hj => by
    rw [h j hj, Bitmap.byte_bit b k j hj]
  have hv := v.toNat_lt
  have hb := (b.byte k).toNat_lt
  have h0 := hbyte 0 (by omega)
  have h1 := hbyte 1 (by omega)
  have h2 := hbyte 2 (by omega)
  have h3 := hbyte 3 (by omega)
  have h4 := hbyte 4 (by omega)
  have h5 := hbyte 5 (by omega)
  have h6 := hbyte 6 (by omega)
  have h7 := hbyte 7 (by omega)
  apply UInt8.toNat_inj.1
  omega

theorem Bitmap.byte_congr (h : ∀ j < 8, b.bits (8 * k + j) = b'.bits (8 * k + j)) : b.byte k = b'.byte k :=
  Bitmap.eq_byte fun j hj => by rw [Bitmap.byte_bit b k j hj, h j hj]

theorem HoldsMap.getElem? (h : HoldsMap l b) (hk : 8 * k + 8 ≤ b.bitCnt) : l[k]? = some (b.byte k) := by
  have hlt : k < l.length := by
    rw [h.1]
    unfold Bitmap.byteCnt Bitmap.elemCnt
    omega
  rw [getElem?_eq_getElem hlt]
  congr 1
  refine Bitmap.eq_byte fun j hj => ?_
  have hbit := h.2 (8 * k + j) (by omega)
  simp only [Bitmap.ofBytes, show (8 * k + j) / 8 = k by omega, show (8 * k + j) % 8 = j by omega,
    show 8 * k + j < b.bitCnt by omega, decide_true, Bool.true_and, getElem?_eq_getElem hlt, Option.getD_some] at hbit
  rw [← hbit]
  rcases Nat.mod_two_eq_zero_or_one (l[k].toNat / 2 ^ j) with h0 | h1
  · rw [h0]
    rfl
  · rw [h1]
    rfl

/-- The first `m` bytes are written anew. -/
def rewritten (b : Bitmap) (l : List UInt8) (m : ℕ) : List UInt8 := slice b.byte 0 m ++ l.drop m

theorem HoldsMap.rewrite (h : HoldsMap l b') (hcnt : b.bitCnt = b'.bitCnt) (hm : m ≤ l.length)
    (hsame : ∀ x, 8 * m ≤ x → x < b.bitCnt → b.bits x = b'.bits x) : HoldsMap (rewritten b l m) b := by
  have hlen : (rewritten b l m).length = Bitmap.byteCnt b.bitCnt := by
    rw [rewritten, length_append, length_slice, length_drop, hcnt, ← h.1]
    omega
  refine ⟨hlen, fun x hx => ?_⟩
  by_cases hxm : x / 8 < m
  · have hget : (rewritten b l m)[x / 8]? = some (b.byte (x / 8)) := by
      rw [rewritten, getElem?_append_left (by rwa [length_slice]), getElem?_slice, if_pos hxm, Nat.zero_add]
    simp only [Bitmap.ofBytes, hx, decide_true, Bool.true_and, hget, Option.getD_some]
    rw [Bitmap.byte_bit b (x / 8) (x % 8) (by omega), Nat.div_add_mod]
    cases b.bits x <;> rfl
  · have hget : (rewritten b l m)[x / 8]? = l[x / 8]? := by
      rw [rewritten, getElem?_append_right (by rw [length_slice]; omega), length_slice, getElem?_drop]
      congr 1
      omega
    have hbit := h.2 x (by omega)
    rw [hsame x (by omega) hx, ← hbit]
    simp only [Bitmap.ofBytes, hcnt, hget]

theorem HoldsMap.rewrite_eq (h : HoldsMap l b') (hm : 8 * m ≤ b'.bitCnt) (hsame : ∀ x < 8 * m, b.bits x = b'.bits x) :
    rewritten b l m = l := by
  have htake : slice b.byte 0 m = l.take m := by
    apply ext_getElem?
    intro i
    rw [getElem?_slice, getElem?_take]
    split_ifs with hi
    · rw [h.getElem? (by omega), Nat.zero_add, Bitmap.byte_congr fun j hj => hsame (8 * i + j) (by omega)]
    · rfl
  rw [rewritten, htake, take_append_drop]

end

/-! ## The file of the map -/

/-- The inode of the open file of the map. -/
def Fs.mapInode (s : Fs) : Option Inode :=
  s.freeMapFile.bind fun file => (s.files.get file).bind fun f => s.inodes.get f.inode

/-- The bytes of the file of the map. -/
def Fs.mapBytes (s : Fs) : List UInt8 :=
  match s.mapInode with
  | some n => slice s.disk (512 * n.data.start) n.data.length.toNat
  | none => []

/-- `bitmap_read` of the file, with memory, yields the map in memory. -/
def Fs.ReadsBack (s : Fs) : Prop :=
  ∃ file t, s.freeMapFile = some file ∧ (bitmapRead file).run s.plenty = .ok (true, t) ∧
    t.freeMap.bitCnt = s.freeMap.bitCnt ∧ ∀ x < s.freeMap.bitCnt, t.freeMap.bits x = s.freeMap.bits x

/-- The map is open, and its file holds it. -/
structure MapReady (s : Fs) (file : ℕ) (n : Inode) : Prop where
  file_eq : s.freeMapFile = some file
  mapFile : MapFile s file n.data
  mapInode : s.mapInode = some n
  bitCnt_pos : 0 < s.freeMap.bitCnt
  bitCnt_lt : s.freeMap.bitCnt < 2 ^ 32
  holds : HoldsMap s.mapBytes s.freeMap

section
variable {s t : Fs} {file cnt sector m : ℕ} {n : Inode} {d : InodeDisk} {b : Bitmap}

/-- **Writing the map**, whatever `malloc` answers. -/
theorem bitmapWrite_exact (hf : MapFile s file d) :
    (bitmapWrite file).run s = .ok (moved false s.memory 0 (Bitmap.byteCnt s.freeMap.bitCnt) == Bitmap.byteCnt s.freeMap.bitCnt,
      (s.withDisk (store s.disk (512 * d.start)
        (slice s.freeMap.byte 0 (moved false s.memory 0 (Bitmap.byteCnt s.freeMap.bitCnt))))).withMemory
          (memoryLeft false s.memory 0 (Bitmap.byteCnt s.freeMap.bitCnt))) := by
  obtain ⟨f, n, hfile, hinode, rfl, hdeny⟩ := hf.isOpen
  have hwithin : within n.data.length (Bitmap.byteCnt s.freeMap.bitCnt : ℕ) 0 = Bitmap.byteCnt s.freeMap.bitCnt := by
    unfold within
    rw [hf.length_eq]
    omega
  unfold bitmapWrite fileWriteAt inodeWriteAt
  rw [run_bind_get, bind_assoc, run_bind_ok (getFile_run hfile), bind_assoc,
    run_bind_ok (getInode_run hinode), if_neg (by simpa using hdeny),
    run_bind_ok (writeLoop_exact s.freeMap.byte _ s false _ 0 0 hf.inDevice le_rfl), hwithin, Nat.zero_add]
  rfl

namespace MapReady

theorem mapBytes_eq (h : MapReady s file n) : s.mapBytes = slice s.disk (512 * n.data.start) (Bitmap.byteCnt s.freeMap.bitCnt) := by
  unfold Fs.mapBytes
  rw [h.mapInode]
  dsimp only
  rw [h.mapFile.length_eq, Int.toNat_natCast]

theorem readsBack (h : MapReady s file n) : s.ReadsBack := by
  have hread := bitmapRead_run (s := s.plenty) rfl
    ⟨h.mapFile.isOpen, ⟨h.mapFile.2.1, h.mapFile.2.2, h.mapFile.2.3, h.mapFile.2.4⟩, h.mapFile.length_eq⟩ h.bitCnt_pos h.holds.1
    (by rw [h.mapBytes_eq, length_slice]; rfl)
  exact ⟨file, _, h.file_eq, hread, rfl, h.holds.2⟩

theorem mapBytes_write (h : MapReady s file n) (hm : m ≤ Bitmap.byteCnt s.freeMap.bitCnt) (b b' : Bitmap) (memory : ℕ → Bool) :
    (((s.withFreeMap b').withDisk (store s.disk (512 * n.data.start) (slice b.byte 0 m))).withMemory memory).mapBytes =
      rewritten b s.mapBytes m := by
  have hslice := slice_store_within (f := s.disk) (a := 512 * n.data.start) (k := 0) (n := Bitmap.byteCnt s.freeMap.bitCnt)
    (l := slice b.byte 0 m) (by rw [length_slice]; omega)
  rw [h.mapBytes_eq]
  unfold Fs.mapBytes
  rw [show Fs.mapInode (((s.withFreeMap b').withDisk (store s.disk (512 * n.data.start) (slice b.byte 0 m))).withMemory memory) =
    some n from h.mapInode]
  dsimp only
  rw [h.mapFile.length_eq, Int.toNat_natCast]
  refine hslice.trans ?_
  rw [overwrite, length_slice, take_zero, nil_append, Nat.zero_add]
  rfl

theorem put (h : MapReady s file n) (b b' : Bitmap) (memory : ℕ → Bool) (hm : m ≤ Bitmap.byteCnt s.freeMap.bitCnt)
    (hcnt : b'.bitCnt = s.freeMap.bitCnt) (hholds : HoldsMap (rewritten b s.mapBytes m) b') :
    MapReady (((s.withFreeMap b').withDisk (store s.disk (512 * n.data.start) (slice b.byte 0 m))).withMemory memory) file n where
  file_eq := h.file_eq
  mapFile := ⟨h.mapFile.isOpen, ⟨h.mapFile.2.1, h.mapFile.2.2, h.mapFile.2.3, h.mapFile.2.4⟩,
    h.mapFile.length_eq.trans (by rw [← hcnt]; rfl)⟩
  mapInode := h.mapInode
  bitCnt_pos := show 0 < b'.bitCnt by rw [hcnt]; exact h.bitCnt_pos
  bitCnt_lt := show b'.bitCnt < 2 ^ 32 by rw [hcnt]; exact h.bitCnt_lt
  holds := by
    rwa [h.mapBytes_write hm]

end MapReady

/-! ## The calls -/

/-- The bits of these sectors lie in whole sectors of the file. -/
def Fs.wholeBits (s : Fs) : ℕ := 4096 * (Bitmap.byteCnt s.freeMap.bitCnt / 512)

/-- The whole map can be written. -/
def Fs.CanWrite (s : Fs) : Prop := s.memory 0 = true ∨ Bitmap.byteCnt s.freeMap.bitCnt % 512 = 0

/-- The sectors from `k` on are free. -/
def Fs.FreeRun (s : Fs) (k cnt : ℕ) : Prop := k + cnt ≤ s.freeMap.bitCnt ∧ ∀ j < cnt, s.freeMap.bits (k + j) = false

theorem moved_of_canWrite (h : s.CanWrite) :
    moved false s.memory 0 (Bitmap.byteCnt s.freeMap.bitCnt) = Bitmap.byteCnt s.freeMap.bitCnt := by
  unfold moved
  rw [if_pos]
  refine h.elim (fun hm => .inr (.inl hm)) fun hwhole => .inr (.inr ?_)
  exact fun hneeds => hneeds.2 ⟨rfl, hwhole⟩

theorem moved_of_not_canWrite (h : ¬ s.CanWrite) :
    moved false s.memory 0 (Bitmap.byteCnt s.freeMap.bitCnt) = s.wholeBits / 8 ∧
      s.wholeBits / 8 < Bitmap.byteCnt s.freeMap.bitCnt ∧ 8 * (s.wholeBits / 8) = s.wholeBits ∧
      s.wholeBits ≤ s.freeMap.bitCnt := by
  obtain ⟨hmem, hpart⟩ := not_or.1 h
  have hneeds : NeedsBounce 0 (Bitmap.byteCnt s.freeMap.bitCnt) := ⟨fun h0 => hpart (by rw [h0]), fun hw => hpart hw.2⟩
  unfold moved Fs.wholeBits
  rw [if_neg (by simp [hneeds, hmem]), if_pos rfl]
  unfold Bitmap.byteCnt Bitmap.elemCnt at hpart ⊢
  omega

/-- What `free_map_allocate` has to do: mark free sectors in memory and in the file, or nothing. -/
def Allocated (s : Fs) (cnt : ℕ) (r : Option ℕ) (t : Fs) : Prop :=
  match r with
  | some k => s.FreeRun k cnt ∧ t.freeMap = s.freeMap.fill k cnt true ∧ t.ReadsBack
  | none => t.freeMap = s.freeMap ∧ t.mapBytes = s.mapBytes

namespace MapReady

theorem holds_all (h : MapReady s file n) (hcnt : b.bitCnt = s.freeMap.bitCnt) :
    HoldsMap (rewritten b s.mapBytes (Bitmap.byteCnt s.freeMap.bitCnt)) b := by
  refine h.holds.rewrite hcnt h.holds.1.ge fun x h1 h2 => ?_
  unfold Bitmap.byteCnt Bitmap.elemCnt at h1
  omega

theorem allocate (h : MapReady s file n)
    (hok : s.CanWrite ∨ cnt = 0 ∨ ∀ k, s.FreeRun k cnt → s.wholeBits ≤ k) :
    Prog.Returns (freeMapAllocate cnt) s fun r t => MapReady t file n ∧ Allocated s cnt r t := by
  rcases Bitmap.scanAndFlip_spec h.bitCnt_lt cnt with ⟨k, hk, hle, hfree, -⟩ | ⟨hk, -⟩
  · refine .bind_run (onFreeMap_run hk) (.bind_run (run_modify _ _) ?_)
    refine .bind_run (run_get _) ?_
    rw [show (s.withFreeMap (s.freeMap.fill k cnt true)).freeMapFile = some file from h.file_eq]
    refine .bind_run (bitmapWrite_exact (h.mapFile.withFreeMap _ rfl)) ?_
    change Prog.Returns (if (moved false s.memory 0 (Bitmap.byteCnt s.freeMap.bitCnt) == Bitmap.byteCnt s.freeMap.bitCnt) = true
      then _ else _) (((s.withFreeMap (s.freeMap.fill k cnt true)).withDisk (store s.disk (512 * n.data.start)
        (slice (s.freeMap.fill k cnt true).byte 0 (moved false s.memory 0 (Bitmap.byteCnt s.freeMap.bitCnt))))).withMemory
          (memoryLeft false s.memory 0 (Bitmap.byteCnt s.freeMap.bitCnt))) _
    by_cases hcan : s.CanWrite
    · rw [moved_of_canWrite hcan, if_pos (beq_self_eq_true _)]
      have hready := h.put (s.freeMap.fill k cnt true) (s.freeMap.fill k cnt true)
        (memoryLeft false s.memory 0 (Bitmap.byteCnt s.freeMap.bitCnt)) le_rfl rfl (h.holds_all rfl)
      exact .pure ⟨hready, ⟨hle, hfree⟩, rfl, hready.readsBack⟩
    · -- the change is taken back, and the whole sectors of the file are as they were
      obtain ⟨hmoved, hlt, h8, hbits⟩ := moved_of_not_canWrite hcan
      rw [hmoved, if_neg (by simpa using hlt.ne)]
      have hundo : (s.freeMap.fill k cnt true).fill k cnt false = s.freeMap := Bitmap.fill_undo fun x h1 h2 => by
        have := hfree (x - k) (by omega)
        rwa [Nat.add_sub_cancel' h1] at this
      have hsame : ∀ x < 8 * (s.wholeBits / 8), (s.freeMap.fill k cnt true).bits x = s.freeMap.bits x := by
        intro x hx
        refine if_neg ?_
        rcases hok.resolve_left hcan with h0 | hrun
        · omega
        · have := hrun k ⟨hle, hfree⟩
          omega
      have hbytes := h.holds.rewrite_eq (by omega) hsame
      have hready := h.put (s.freeMap.fill k cnt true) s.freeMap
        (memoryLeft false s.memory 0 (Bitmap.byteCnt s.freeMap.bitCnt)) hlt.le rfl (hbytes.symm ▸ h.holds)
      refine .bind_run (onFreeMap_run (Bitmap.setMultiple_eq h.bitCnt_lt hle)) (.bind_run (run_modify _ _) ?_)
      change Prog.Returns (pure none : FsM (Option ℕ)) (((s.withFreeMap ((s.freeMap.fill k cnt true).fill k cnt false)).withDisk
        _).withMemory _) _
      rw [hundo]
      exact .pure ⟨hready, rfl, (h.mapBytes_write hlt.le _ _ _).trans hbytes⟩
  · exact .bind_run (onFreeMap_run hk) (.bind_run (run_modify _ _) (.pure ⟨h, rfl, rfl⟩))

theorem release (h : MapReady s file n) (hok : s.CanWrite ∨ cnt = 0 ∨ sector + cnt ≤ s.wholeBits)
    (hle : sector + cnt ≤ s.freeMap.bitCnt) (hall : ∀ j < cnt, s.freeMap.bits (sector + j) = true) :
    Prog.Returns (freeMapRelease sector cnt) s fun _ t =>
      MapReady t file n ∧ t.freeMap = s.freeMap.fill sector cnt false ∧ t.ReadsBack := by
  refine .bind_run (onFreeMap_run (Bitmap.all_eq h.bitCnt_lt hle hall)) ?_
  refine .bind_run (onFreeMap_run (Bitmap.setMultiple_eq h.bitCnt_lt hle)) (.bind_run (run_modify _ _)
    (.bind_run (run_get _) ?_))
  rw [show (s.withFreeMap (s.freeMap.fill sector cnt false)).freeMapFile = some file from h.file_eq]
  refine .bind_run (bitmapWrite_exact (h.mapFile.withFreeMap _ rfl)) ?_
  have hready : MapReady (((s.withFreeMap (s.freeMap.fill sector cnt false)).withDisk (store s.disk (512 * n.data.start)
      (slice (s.freeMap.fill sector cnt false).byte 0 (moved false s.memory 0 (Bitmap.byteCnt s.freeMap.bitCnt))))).withMemory
        (memoryLeft false s.memory 0 (Bitmap.byteCnt s.freeMap.bitCnt))) file n := by
    refine h.put _ _ _ moved_le rfl ?_
    by_cases hcan : s.CanWrite
    · rw [moved_of_canWrite hcan]
      exact h.holds_all rfl
    · obtain ⟨hmoved, hlt, h8, -⟩ := moved_of_not_canWrite hcan
      rw [hmoved]
      refine h.holds.rewrite rfl (by rw [h.holds.1]; exact hlt.le) fun x h1 _ => if_neg ?_
      rcases hok.resolve_left hcan with h0 | hend <;> omega
  exact .pure ⟨hready, rfl, hready.readsBack⟩

end MapReady

/-! ## Opening the map -/

/-- The kernel before `free_map_open`: no inode is open, and the sector 0 holds the inode of a file in
    the device that has the size of the map. -/
structure Fs.MapOnDisk (s : Fs) : Prop where
  openInodes : s.openInodes = []
  inDevice : InDevice s (s.inodeAt 0)
  length_eq : (s.inodeAt 0).length = Bitmap.byteCnt s.freeMap.bitCnt
  bitCnt_eq : s.freeMap.bitCnt = s.size

theorem Fs.MapOnDisk.plenty (h : s.MapOnDisk) : s.plenty.MapOnDisk :=
  ⟨h.openInodes, ⟨h.inDevice.1, h.inDevice.2, h.inDevice.3, h.inDevice.4⟩, h.length_eq, h.bitCnt_eq⟩

theorem ok_of_inodeOpen {k i : ℕ} (ho : s.openInodes = []) (h : (inodeOpen k).run s = .ok (some i, t)) :
    ∃ memory, t = (s.withInodes [i] (s.inodes.alloc ⟨k, 1, false, 0, s.inodeAt k⟩)).withMemory memory ∧
      i = s.inodes.next ∧ k < s.size := by
  unfold inodeOpen at h
  rw [run_bind_get, ho, run_bind_ok (show (openLoop k []).run s = .ok (none, s) from rfl)] at h
  rw [run_bind_ok (malloc_scarce s)] at h
  split_ifs at h
  · obtain ⟨data, u, hread, h⟩ := ok_of_run_bind h
    unfold blockRead at hread
    rw [run_bind_get] at hread
    split_ifs at hread with hlt
    · obtain ⟨rfl, rfl⟩ := ok_inj hread
      obtain ⟨hi, rfl⟩ := ok_inj h
      obtain rfl := Option.some.inj hi
      refine ⟨fun n => s.memory (n + 1), ?_, rfl, hlt⟩
      change Fs.withInodes _ (s.inodes.next :: s.openInodes) _ = _
      rw [ho]
      rfl
    · cases hread
  · cases (ok_inj h).1

theorem ok_of_fileOpen {i : ℕ} {inode : Option ℕ} (h : (fileOpen inode).run s = .ok (some i, t)) :
    ∃ j memory, inode = some j ∧ t = (s.withFiles (s.files.alloc ⟨j, 0, false⟩)).withMemory memory ∧ i = s.files.next := by
  unfold fileOpen at h
  rw [run_bind_ok (malloc_scarce s)] at h
  split at h
  · next j hfound =>
    obtain ⟨hi, rfl⟩ := ok_inj h
    exact ⟨j, fun n => s.memory (n + 1), rfl, rfl, (Option.some.inj hi).symm⟩
  · obtain ⟨_, _, -, h⟩ := ok_of_run_bind h
    cases (ok_inj h).1

theorem Fs.MapOnDisk.openMapFile (h : s.MapOnDisk) (hopen : openMapFile.run s = .ok (file, t)) :
    ∃ n, t.freeMapFile = some file ∧ MapFile t file n.data ∧ t.mapInode = some n ∧ t.freeMap = s.freeMap ∧ 0 < s.size := by
  obtain ⟨inode, u, hinode, hopen⟩ := ok_of_run_bind hopen
  obtain ⟨file', u', hfile, hopen⟩ := ok_of_run_bind hopen
  cases file' with
  | none => cases hopen
  | some file' =>
    cases hopen
    obtain ⟨j, memory', rfl, rfl, rfl⟩ := ok_of_fileOpen hfile
    obtain ⟨memory, rfl, rfl, hlt⟩ := ok_of_inodeOpen h.openInodes hinode
    refine ⟨⟨0, 1, false, 0, s.inodeAt 0⟩, rfl, ⟨?_, ?_, h.length_eq⟩, ?_, rfl, hlt⟩
    · exact ⟨_, _, Heap.get_alloc_self, Heap.get_alloc_self, rfl, rfl⟩
    · exact ⟨h.inDevice.1, h.inDevice.2, h.inDevice.3, h.inDevice.4⟩
    · unfold Fs.mapInode
      change ((s.files.alloc ⟨s.inodes.next, 0, false⟩).get s.files.next).bind _ = _
      rw [Heap.get_alloc_self]
      exact Heap.get_alloc_self

theorem Fs.MapOnDisk.ready (h : s.MapOnDisk) (hopen : freeMapOpen.run s = .ok ((), t)) : ∃ file n, MapReady t file n := by
  obtain ⟨file, s1, hfile, hopen⟩ := ok_of_run_bind hopen
  obtain ⟨n, hfile1, hmap, hnode, hbits, hpos⟩ := h.openMapFile hfile
  obtain ⟨f, n', hget, hinode, hdata, -⟩ := hmap.isOpen
  have hcnt : s1.freeMap.bitCnt = s.size := by rw [hbits, h.bitCnt_eq]
  have hwithin : within n'.data.length (Bitmap.byteCnt s1.freeMap.bitCnt : ℕ) 0 = Bitmap.byteCnt s1.freeMap.bitCnt := by
    unfold within
    rw [hdata, hmap.length_eq]
    omega
  obtain ⟨success, s2, hread, hopen⟩ := ok_of_run_bind hopen
  unfold bitmapRead fileReadAt inodeReadAt at hread
  rw [run_bind_get, if_pos (by omega), bind_assoc, run_bind_ok (getFile_run hget), bind_assoc,
    run_bind_ok (getInode_run hinode), run_bind_ok (readLoop_exact _ s1 false _ 0 [] (hdata ▸ hmap.inDevice) le_rfl),
    hwithin, run_bind_modify] at hread
  cases hread
  split_ifs at hopen with hall
  · obtain ⟨-, rfl⟩ := ok_inj hopen
    rw [nil_append, length_slice, beq_iff_eq] at hall
    rw [hall, hdata, Nat.add_zero, nil_append]
    refine ⟨file, n, hfile1, ⟨hmap.isOpen, ⟨hmap.2.1, hmap.2.2, hmap.2.3, hmap.2.4⟩, hmap.length_eq⟩, hnode,
      show 0 < s1.freeMap.bitCnt by omega, ?_, ?_⟩
    · have := h.inDevice.size_lt
      exact show s1.freeMap.bitCnt < 2 ^ 32 by omega
    · -- the bytes that were read are those of the file
      have hbytes : Fs.mapBytes ((s1.withMemory (memoryLeft false s1.memory 0 (Bitmap.byteCnt s1.freeMap.bitCnt))).withFreeMap
          (.ofBytes s1.freeMap.bitCnt (slice s1.disk (512 * n.data.start) (Bitmap.byteCnt s1.freeMap.bitCnt)))) =
          slice s1.disk (512 * n.data.start) (Bitmap.byteCnt s1.freeMap.bitCnt) := by
        unfold Fs.mapBytes
        rw [show Fs.mapInode ((s1.withMemory (memoryLeft false s1.memory 0 (Bitmap.byteCnt s1.freeMap.bitCnt))).withFreeMap
          (.ofBytes s1.freeMap.bitCnt (slice s1.disk (512 * n.data.start) (Bitmap.byteCnt s1.freeMap.bitCnt)))) = some n from hnode]
        dsimp only
        rw [hmap.length_eq, Int.toNat_natCast]
        rfl
      refine ⟨?_, fun x hx => ?_⟩
      · refine (congrArg length hbytes).trans ?_
        rw [length_slice]
        rfl
      · refine (congrArg (fun c => (Bitmap.ofBytes s1.freeMap.bitCnt c).bits x) hbytes).trans ?_
        rfl
  · cases hopen

/-! ## Runs -/

/-- The free map, the open file of the map and its bytes are the same. -/
structure SameMap (s t : Fs) : Prop where
  freeMap : t.freeMap = s.freeMap
  size : t.size = s.size
  freeMapFile : t.freeMapFile = s.freeMapFile
  mapInode : t.mapInode = s.mapInode
  mapBytes : t.mapBytes = s.mapBytes

theorem MapReady.allowed (h : MapReady s file n) : n.denyWriteCnt = 0 := by
  obtain ⟨f, n', hf, hn, -, hdeny⟩ := h.mapFile.isOpen
  have hinode := h.mapInode
  unfold Fs.mapInode at hinode
  rw [h.file_eq, Option.bind_some, hf, Option.bind_some, hn] at hinode
  exact Option.some.inj hinode ▸ hdeny

theorem MapReady.same (h : MapReady s file n) (hsame : SameMap s t) : MapReady t file n where
  file_eq := hsame.freeMapFile.trans h.file_eq
  mapFile := by
    have hinode := hsame.mapInode.trans h.mapInode
    unfold Fs.mapInode at hinode
    rw [hsame.freeMapFile, h.file_eq, Option.bind_some, Option.bind_eq_some_iff] at hinode
    obtain ⟨f, hf, hn⟩ := hinode
    have hd := h.mapFile.inDevice
    refine ⟨⟨f, n, hf, hn, rfl, h.allowed⟩, ⟨hd.1, hd.2, hsame.size ▸ hd.3, hsame.size ▸ hd.4⟩, ?_⟩
    · rw [hsame.freeMap]
      exact h.mapFile.length_eq
  mapInode := hsame.mapInode.trans h.mapInode
  bitCnt_pos := hsame.freeMap ▸ h.bitCnt_pos
  bitCnt_lt := hsame.freeMap ▸ h.bitCnt_lt
  holds := by
    rw [hsame.mapBytes, hsame.freeMap]
    exact h.holds

/-- The calls on the free map; between them the rest of the kernel runs. -/
inductive MapCall where
  | allocate (cnt : ℕ)
  | release (sector cnt : ℕ)
  | rest

/-- A call that completes. -/
def MapStep (s : Fs) (call : MapCall) (t : Fs) : Prop :=
  match call with
  | .allocate cnt => ∃ r, (freeMapAllocate cnt).run s = .ok (r, t)
  | .release sector cnt => (freeMapRelease sector cnt).run s = .ok ((), t)
  | .rest => SameMap s t

/-- The map can be written whole, or the call changes nothing that is written or that is not. -/
def MapOk (s : Fs) : MapCall → Prop
  | .allocate cnt => s.CanWrite ∨ cnt = 0 ∨ ∀ k, s.FreeRun k cnt → s.wholeBits ≤ k
  | .release sector cnt => s.CanWrite ∨ cnt = 0 ∨ sector + cnt ≤ s.wholeBits
  | .rest => True

theorem MapReady.step {call : MapCall} (h : MapReady s file n) (hok : MapOk s call) (hstep : MapStep s call t) :
    MapReady t file n := by
  cases call with
  | allocate cnt =>
    obtain ⟨r, hrun⟩ := hstep
    obtain ⟨_, _, hrun', ht, -⟩ := h.allocate hok
    obtain ⟨-, rfl⟩ := ok_inj (hrun'.symm.trans hrun)
    exact ht
  | release sector cnt =>
    obtain ⟨hle, hall⟩ := ok_of_freeMapRelease hstep
    obtain ⟨_, _, hrun', ht, -⟩ := h.release hok hle hall
    obtain ⟨-, rfl⟩ := ok_inj (hrun'.symm.trans hstep)
    exact ht
  | rest => exact h.same hstep

theorem MapReady.runs {calls : List MapCall} (h : MapReady s file n)
    (hruns : Runs (fun s call t => MapOk s call ∧ MapStep s call t) s calls t) : MapReady t file n := by
  induction hruns with
  | nil => exact h
  | cons hstep _ ih => exact ih (h.step hstep.1 hstep.2)

/-- **The free map and its file agree** in every run of calls with `MapOk` after `free_map_open`:
    reading the file gives the map; `free_map_allocate` marks free sectors in both, or changes neither;
    `free_map_release` clears them in both. -/
theorem free_map_stored {s0 : Fs} {calls : List MapCall} (hdisk : s.MapOnDisk) (hopen : freeMapOpen.run s = .ok ((), s0))
    (hruns : Runs (fun s call t => MapOk s call ∧ MapStep s call t) s0 calls t) :
    t.ReadsBack ∧
    (∀ cnt, MapOk t (.allocate cnt) → Prog.Returns (freeMapAllocate cnt) t (Allocated t cnt)) ∧
    ∀ sector cnt, MapOk t (.release sector cnt) → sector + cnt ≤ t.freeMap.bitCnt →
      (∀ j < cnt, t.freeMap.bits (sector + j) = true) →
      Prog.Returns (freeMapRelease sector cnt) t fun _ u => u.freeMap = t.freeMap.fill sector cnt false ∧ u.ReadsBack := by
  obtain ⟨file, n, hready⟩ := hdisk.ready hopen
  have ht := hready.runs hruns
  refine ⟨ht.readsBack, fun cnt hok => ?_, fun sector cnt hok hle hall => ?_⟩
  · exact (ht.allocate hok).mono fun r u hu => hu.2
  · exact (ht.release hok hle hall).mono fun _ u hu => hu.2

end

/-! ## Half of the map is written -/

/-- A device with a map of 516 bytes, from the sector 1 on, where `malloc` answers as often as
    `free_map_open` asks. -/
def wideFs : Fs where
  disk := store (fun _ => 0) 0 (InodeDisk.toBytes ⟨1, 516, inodeMagic⟩)
  size := 4128
  freeMap := ⟨4128, fun _ => false⟩
  freeMapFile := none
  openInodes := []
  inodes := .empty
  files := .empty
  memory n := n < 3

theorem wideFs_mapOnDisk : wideFs.MapOnDisk := by
  have hinode : wideFs.inodeAt 0 = ⟨1, 516, inodeMagic⟩ := by
    have hslice := slice_store_self (f := fun _ => (0 : UInt8)) (a := 0) (l := InodeDisk.toBytes ⟨1, 516, inodeMagic⟩)
    rw [InodeDisk.length_toBytes] at hslice
    unfold Fs.inodeAt
    rw [Nat.mul_zero, show wideFs.disk = store (fun _ => 0) 0 (InodeDisk.toBytes ⟨1, 516, inodeMagic⟩) from rfl, hslice,
      InodeDisk.ofBytes_toBytes (by decide) (by decide) (by decide) (by decide)]
  refine ⟨rfl, ?_, ?_, rfl⟩
  · rw [hinode]
    exact ⟨by decide, by decide, by decide, by decide⟩
  · rw [hinode]
    decide

theorem free_map_stored_allocate : ∃ s0 t, freeMapOpen.run wideFs.plenty = .ok ((), s0) ∧
    (freeMapAllocate 1).run s0 = .ok (some 0, t) ∧ t.ReadsBack := by
  have hdisk := wideFs_mapOnDisk.plenty
  let p (r : Option ℕ) (_ : Fs) : Bool := r == some 0
  obtain ⟨_, s0, hopen, hrun⟩ : Prog.Returns freeMapOpen wideFs.plenty fun _ s0 =>
      (s0.memory 0 && (((freeMapAllocate 1).run s0).toOption.map fun r => p r.1 r.2) == some true) = true :=
    .of_eval (by decide +kernel)
  rw [Bool.and_eq_true, beq_iff_eq] at hrun
  obtain ⟨r, t, halloc, hp⟩ := Prog.Returns.of_eval hrun.2
  obtain rfl : r = some 0 := beq_iff_eq.1 hp
  have hruns : Runs (fun s call t => MapOk s call ∧ MapStep s call t) s0 [.allocate 1] t :=
    .cons ⟨.inl (.inl hrun.1), some 0, halloc⟩ .nil
  exact ⟨s0, t, hopen, halloc, (free_map_stored hdisk hopen hruns).1⟩

/-- The first sector of the map is written and the second is not: `free_map_allocate` returns false,
    but the file has changed, and reading it back gives another map. -/
theorem allocate_half_written : wideFs.MapOnDisk ∧ ∃ s0 t, freeMapOpen.run wideFs = .ok ((), s0) ∧
    (freeMapAllocate 1).run s0 = .ok (none, t) ∧ t.mapBytes ≠ s0.mapBytes ∧ ¬ t.ReadsBack := by
  refine ⟨wideFs_mapOnDisk, ?_⟩
  let p (s0 : Fs) (r : Option ℕ) (t : Fs) : Bool :=
    r == none && t.freeMapFile == some 0 && t.freeMap.bitCnt == 4128 && !t.freeMap.bits 0 && t.mapBytes != s0.mapBytes &&
      (((bitmapRead 0).run t.plenty).toOption.map fun r => r.2.freeMap.bits 0) == some true
  obtain ⟨_, s0, hopen, hrun⟩ : Prog.Returns freeMapOpen wideFs fun _ s0 =>
      ((((freeMapAllocate 1).run s0).toOption.map fun r => p s0 r.1 r.2) == some true) = true := .of_eval (by decide +kernel)
  obtain ⟨r, t, halloc, hp⟩ := Prog.Returns.of_eval (beq_iff_eq.1 hrun)
  simp only [p, Bool.and_eq_true, beq_iff_eq, bne_iff_ne, Bool.not_eq_true'] at hp
  obtain ⟨⟨⟨⟨⟨rfl, hfile⟩, hcnt⟩, hbit⟩, hbytes⟩, hread⟩ := hp
  refine ⟨s0, t, hopen, halloc, hbytes, ?_⟩
  rintro ⟨file, u, hfile', hrun', -, hbits⟩
  cases hfile.symm.trans hfile'
  rw [hrun'] at hread
  have hset : u.freeMap.bits 0 = true := Option.some.inj hread
  have := hbits 0 (by omega)
  rw [hbit, hset] at this
  cases this

end Pintos
