/-
  Formatting a device.

  `filesys_init` with `format` makes, on a device with four sectors or more, a file system with an
  empty root directory, whatever was on the device before and whatever memory the free map got.
-/
import Pintos.Fs.Refine

namespace Pintos

open Lib Prog Function List

variable {s t : Fs} {size : ℕ} {junk : ℕ → Bool} {disk : ℕ → UInt8}

/-- The disk and the free map are the same. -/
structure SameDisk (s t : Fs) : Prop where
  disk : t.disk = s.disk
  size : t.size = s.size
  freeMap : t.freeMap = s.freeMap
  memory : t.memory = s.memory

/-- The free map before anything is allocated. -/
def Bitmap.initial (size : ℕ) (junk : ℕ → Bool) : Bitmap := ((Bitmap.create size junk).mark 0).mark 1

theorem initial_bits {x : ℕ} (hx : x < size) : (Bitmap.initial size junk).bits x = decide (x < 2) := by
  unfold Bitmap.initial Bitmap.mark Bitmap.create
  dsimp only
  rw [update_apply, update_apply]
  split_ifs with h1 h2
  · rw [h1]; rfl
  · rw [h2]; rfl
  · exact (decide_eq_false (by omega)).symm

theorem openInv_empty {data : ℕ → Option InodeDisk} {kept : ℕ → Prop} (ho : s.openInodes = [])
    (hi : ∀ i, s.inodes.get i = none) (hf : ∀ f, s.files.get f = none) : OpenInv s data kept [] := by
  refine ⟨.of_empty ho hi hf, fun h => ?_⟩
  rw [hi] at h
  cases h

theorem openMapFile_run {data : ℕ → Option InodeDisk} {kept : ℕ → Prop} (h : OpenInv s data kept [])
    (hm : s.MemoryOk) (hsize : 0 < s.size)
    (hdata : data 0 = some (InodeDisk.ofBytes (slice s.disk (512 * 0) 512))) (hkept : kept 0) :
    ∃ file t, openMapFile.run s = .ok (file, t) ∧ SameDisk s t ∧ OpenInv t data kept [] ∧
      t.freeMapFile = some file ∧ t.fileSector file = some 0 ∧ ∀ g ≠ file, t.files.get g = s.files.get g := by
  obtain ⟨i, o, h', hrun, hopen, hsec, -⟩ := inodeOpen_run h hm hsize hdata hkept
  have hfile : (fileOpen (some i)).run (s.withInodes o h') =
      .ok (some s.files.next, (s.withInodes o h').withFiles (s.files.alloc ⟨i, 0, false⟩)) := by
    unfold fileOpen
    rw [run_bind_ok (malloc_run (s := s.withInodes o h') hm)]
    rfl
  refine ⟨s.files.next, { (s.withInodes o h').withFiles (s.files.alloc ⟨i, 0, false⟩) with
    freeMapFile := some s.files.next }, ?_, ⟨rfl, rfl, rfl, rfl⟩, ?_, rfl, ?_, fun g hg => Heap.get_alloc_of_ne hg⟩
  · unfold openMapFile
    rw [run_bind_ok hrun, run_bind_ok hfile, run_bind_modify]
    rfl
  · exact hopen.openFile.congr rfl rfl rfl (fun _ => rfl) (fun _ => Iff.rfl)
  · rw [Fs.fileSector_eq]
    change ((s.files.alloc ⟨i, 0, false⟩).get s.files.next).bind _ = _
    rwa [Heap.get_alloc_self]

variable {nodes : Nodes} {file : ℕ}

theorem mapFile_of_node {kept : ℕ → Prop} {bits : ℕ → Bool} {map : Node} (h : OpenInv s nodes.data kept [])
    (hl : Layout s.size bits nodes) (hsize : s.size ≤ 2 ^ 31) (hmap : nodes 0 = some map)
    (hlen : map.content.length = Bitmap.byteCnt s.freeMap.bitCnt) (hfile : s.fileSector file = some 0) :
    MapFile s file map.data := by
  obtain ⟨f, hf, hsec⟩ := Option.bind_eq_some_iff.1 hfile
  obtain ⟨n, hn, h0⟩ := Option.map_eq_some_iff.1 hsec
  have hok := h.inode hn
  have hdata := hok.data_eq
  rw [h0] at hdata
  unfold Nodes.data at hdata
  rw [hmap] at hdata
  have h1 := hl.length_lt hmap
  refine ⟨⟨f, n, hf, hn, (Option.some.inj hdata).symm, hok.allowed (by omega)⟩, ⟨Int.natCast_nonneg _, ?_, hl.data_le hmap, ?_⟩, ?_⟩
  · change ((map.content.length : ℕ) : ℤ) < _
    omega
  · omega
  · change ((map.content.length : ℕ) : ℤ) = _
    rw [hlen]

/-- The state after `free_map_create`: the only node is that of the free map. -/
structure MapCreated (t : Fs) (size file : ℕ) (map : Node) : Prop where
  memory : t.MemoryOk
  size_eq : t.size = size
  bitCnt_eq : t.freeMap.bitCnt = size
  content_eq : map.content = t.freeMap.toBytes
  stored : AllStored t.disk (update (fun _ => none) 0 (some map))
  layout : Layout t.size t.freeMap.bits (update (fun _ => none) 0 (some map))
  opened : OpenInv t (Nodes.data (update (fun _ => none) 0 (some map))) (· < 2) []
  freeMapFile : t.freeMapFile = some file
  fileSector : t.fileSector file = some 0
  files : ∀ g ≠ file, t.files.get g = none
  start_le : 2 ≤ map.start
  marked : ∀ x < size, t.freeMap.bits x = true ↔ x < 2 ∨ map.Has x

theorem layout_empty (size : ℕ) (bits : ℕ → Bool) : Layout size bits fun _ => none :=
  ⟨nofun, nofun, nofun, nofun, nofun, nofun, nofun⟩

theorem sectors_map_le (h3 : 3 ≤ size) : sectorsOf (Bitmap.byteCnt size) + 2 ≤ size := by
  unfold sectorsOf Bitmap.byteCnt Bitmap.elemCnt
  omega

theorem overwrite_all {c l : List UInt8} (h : l.length = c.length) : overwrite c 0 l = l := by
  unfold overwrite
  rw [take_zero, nil_append, drop_of_length_le (by omega), append_nil]

/-- The inode of the free map, with zeros for its content. -/
theorem zeros_stored {start len : ℕ} {bits : ℕ → Bool} (disk : ℕ → UInt8) (h2 : 2 ≤ start)
    (hle : start + sectorsOf len ≤ size) (hlen : len + 511 < 2 ^ 31) (hsize : 0 < size)
    (hmark : ∀ x < size, bits x = true ↔ x < 2 ∨ (⟨start, replicate len 0⟩ : Node).Has x) :
    AllStored (newInode disk 0 start len) (update (fun _ => none) 0 (some ⟨start, List.replicate len 0⟩)) ∧
      Layout size bits (update (fun _ => none) 0 (some ⟨start, List.replicate len 0⟩)) := by
  have hhas : ∀ x, (⟨start, replicate len 0⟩ : Node).Has x ↔ start ≤ x ∧ x < start + sectorsOf len := by
    intro x
    unfold Node.Has Node.sectors
    rw [length_replicate]
  refine ⟨AllStored.insert (fun _ _ h => by cases h) (fun h => by cases h) (fun h => by cases h) (by omega), ?_⟩
  refine (layout_empty _ _).insert ?_ hsize ?_ ((hmark 0 hsize).2 (.inl (by omega)))
    (fun {x} hx => (hmark x ?_).2 (.inr hx)) (fun h => by cases h) (fun h => by cases h) ?_
  · rwa [length_replicate]
  · change start + sectorsOf (replicate len (0 : UInt8)).length ≤ size
    rwa [length_replicate]
  · have := (hhas x).1 hx
    omega
  · rw [hhas]
    omega

theorem freeMapCreate_run (hm : s.MemoryOk) (h3 : 3 ≤ size) (hle : size ≤ 2 ^ 31) (hsize : s.size = size)
    (hmap : s.freeMap = .initial size junk) (hfile : s.freeMapFile = none) (ho : s.openInodes = [])
    (hi : ∀ i, s.inodes.get i = none) (hf : ∀ f, s.files.get f = none) :
    ∃ t file map, freeMapCreate.run s = .ok ((), t) ∧ MapCreated t size file map := by
  have hcnt : s.freeMap.bitCnt = size := by rw [hmap]; rfl
  have hsectors := sectors_map_le h3
  have hbyte : Bitmap.byteCnt size + 511 < 2 ^ 31 := by unfold Bitmap.byteCnt Bitmap.elemCnt; omega
  set len := Bitmap.byteCnt size with hlen
  have hcreate := inodeCreate_run_of_allocate (fun k cnt => s.withFreeMap (s.freeMap.fill k cnt true)) hm
    (hsize ▸ hle) (show 0 < s.size by omega) (fun _ _ => rfl) (fun cnt => by
      rw [hsize, ← hcnt]
      exact freeMapAllocate_run_of_none cnt (by omega) hfile) (show len < 2 ^ 31 by omega)
  have hbits : ∀ x < size, s.freeMap.bits x = decide (x < 2) := by
    intro x hx
    rw [hmap]
    exact initial_bits hx
  rcases hcreate with ⟨start, hrun, hstart, hfree, hbig⟩ | ⟨-, hno⟩
  · have hstart2 : 2 ≤ start := by
      have hpos : 0 < sectorsOf len := by unfold sectorsOf; rw [hlen]; unfold Bitmap.byteCnt Bitmap.elemCnt; omega
      have := hfree 0 hpos
      rw [hbits _ (by omega)] at this
      have := of_decide_eq_false this
      omega
    set b := s.freeMap.fill start (sectorsOf len) true with hb
    set s1 := (s.withFreeMap b).withDisk (newInode s.disk 0 start len) with hs1
    -- the node on the disk, with zeros for its content
    set zeros : Node := ⟨start, replicate len 0⟩ with hzeros
    have hmark : ∀ x < size, b.bits x = true ↔ x < 2 ∨ zeros.Has x := by
      intro x hx
      unfold Node.Has Node.sectors
      rw [hzeros, length_replicate]
      change (if start ≤ x ∧ x < start + sectorsOf len then true else s.freeMap.bits x) = true ↔ _
      split_ifs with hin
      · exact ⟨fun _ => .inr hin, fun _ => rfl⟩
      · rw [hbits x hx, decide_eq_true_iff]
        exact ⟨.inl, fun h => h.resolve_right hin⟩
    obtain ⟨hstored1, hlayout1⟩ : AllStored s1.disk (update (fun _ => none) 0 (some zeros)) ∧
        Layout size b.bits (update (fun _ => none) 0 (some zeros)) :=
      zeros_stored s.disk hstart2 (hsize ▸ hstart) hbig (by omega) hmark
    have hself : (update (fun _ => none) 0 (some zeros) : Nodes) 0 = some zeros := update_self ..
    have hdata1 : Nodes.data (update (fun _ => none) 0 (some zeros)) 0 =
        some (InodeDisk.ofBytes (slice s1.disk (512 * 0) 512)) := by
      unfold Nodes.data
      rw [hself, (hstored1 0 zeros hself).ofBytes hlayout1 hle hself]
      rfl
    have hopen1 : OpenInv s1 (Nodes.data (update (fun _ => none) 0 (some zeros))) (· < 2) [] :=
      openInv_empty ho hi hf
    obtain ⟨file, s2, hopen, hsame, hopen2, hfile2, hsec2, hfiles2⟩ :=
      openMapFile_run hopen1 hm (by change 0 < s.size; omega) hdata1 (by decide)
    have hfreeMap2 : s2.freeMap = b := hsame.freeMap
    have hsize2 : s2.size = size := hsame.size.trans hsize
    have hmf : MapFile s2 file zeros.data := by
      refine mapFile_of_node hopen2 (hsize2 ▸ hlayout1) (hsize2 ▸ hle) hself ?_ hsec2
      rw [hfreeMap2, hzeros, length_replicate, hlen]
      change _ = Bitmap.byteCnt s.freeMap.bitCnt
      rw [hcnt]
    -- now the bitmap is written
    have hbytes : b.toBytes.length = zeros.content.length := by
      rw [Bitmap.length_toBytes, hzeros, length_replicate, hlen]
      change Bitmap.byteCnt s.freeMap.bitCnt = _
      rw [hcnt]
    have hup : update (update (fun _ => none) 0 (some zeros)) 0 (some ⟨start, b.toBytes⟩) =
        (update (fun _ => none) 0 (some ⟨start, b.toBytes⟩) : Nodes) := update_idem ..
    refine ⟨s2.putMap zeros.data s2.freeMap, file, ⟨start, b.toBytes⟩, ?_, ⟨?_, hsize2, ?_, ?_, ?_, ?_, ?_, hfile2, hsec2,
      fun g hg => (hfiles2 g hg).trans (hf g), hstart2, ?_⟩⟩
    · unfold freeMapCreate
      rw [run_bind_get, hcnt]
      rw [run_bind_ok hrun, if_pos rfl]
      change StateT.run _ s1 = _
      rw [run_bind_ok hopen, run_bind_ok (bitmapWrite_run (hsame.memory.trans hm) hmf)]
      rfl
    · exact hsame.memory.trans hm
    · change s2.freeMap.bitCnt = size
      rwa [hfreeMap2]
    · change b.toBytes = s2.freeMap.toBytes
      rw [hfreeMap2]
    · have hw : AllStored (store s1.disk (512 * zeros.start + 0) b.toBytes) _ :=
        hstored1.write hlayout1 hself (by omega)
      rw [overwrite_all hbytes, hup] at hw
      change AllStored (store s2.disk (512 * start) s2.freeMap.toBytes) _
      rwa [hsame.disk, hfreeMap2]
    · have hw := hlayout1.write hself hbytes
      rw [hup] at hw
      change Layout s2.size s2.freeMap.bits _
      rwa [hsize2, hfreeMap2]
    · refine hopen2.congr rfl rfl rfl (fun _ => ?_) (fun _ => Iff.rfl)
      rw [← hup]
      exact Nodes.data_write hself hbytes _
    · intro x hx
      change s2.freeMap.bits x = true ↔ _
      rw [hfreeMap2, hmark x hx]
      unfold Node.Has Node.sectors
      rw [hbytes]
  · obtain ⟨j, hj, hbit⟩ := hno (by omega) 2 (by omega)
    rw [hbits _ (by omega)] at hbit
    have := of_decide_eq_true hbit
    omega

/-! ## The root directory -/

theorem entryAt_zeros (m i : ℕ) : (entryAt (List.replicate m 0) i).inUse = false := by
  unfold entryAt DirEntry.ofBytes
  rw [drop_replicate, take_replicate, getElem?_replicate]
  split_ifs <;> rfl

theorem dirOk_zeros (nodes : Nodes) : DirOk (List.replicate 320 0) nodes := by
  have huse : ∀ {i}, (entryAt (replicate 320 0) i).inUse ≠ true :=
    fun {i} => by rw [entryAt_zeros]; exact Bool.false_ne_true
  exact ⟨length_replicate, fun _ h => absurd h huse, fun _ h => absurd h huse, fun _ _ h => absurd h huse,
    fun _ _ h => absurd h huse⟩

/-- A file system without files. -/
structure Fresh (nodes : Nodes) : Prop where
  lt_two : ∀ k n, nodes k = some n → k < 2
  root : ∃ root, nodes 1 = some root ∧ root.content = List.replicate 320 0

theorem Fresh.kept (h : Fresh nodes) (k : ℕ) : Kept nodes k ↔ k < 2 := by
  obtain ⟨root, hroot, hc⟩ := h.root
  rw [kept_iff hroot, hc]
  refine ⟨fun hk => hk.elim id ?_, .inl⟩
  rintro ⟨i, -, huse, -⟩
  rw [entryAt_zeros] at huse
  cases huse

theorem Fresh.not_bound (h : Fresh nodes) (name : Name) (k : ℕ) : ¬ Bound nodes name k := by
  obtain ⟨root, hroot, hc⟩ := h.root
  rw [bound_iff hroot, hc]
  rintro ⟨i, -, hnm, -⟩
  have := (hasName_iff.1 hnm).1
  rw [entryAt_zeros] at this
  cases this

theorem MapCreated.free_sector {map : Node} (h : MapCreated s size file map) (h4 : 4 ≤ size) :
    ∃ k < size, s.freeMap.bits k = false := by
  have hsectors : map.sectors = sectorsOf (Bitmap.byteCnt size) := by
    unfold Node.sectors
    rw [h.content_eq, Bitmap.length_toBytes, h.bitCnt_eq]
  have hroom : sectorsOf (Bitmap.byteCnt size) + 3 ≤ size := by
    unfold sectorsOf Bitmap.byteCnt Bitmap.elemCnt
    omega
  by_cases h2 : map.Has 2
  · have hle := h2.1
    refine ⟨map.start + map.sectors, by omega, eq_false_of_ne_true fun hbit => ?_⟩
    rw [h.marked _ (by omega)] at hbit
    unfold Node.Has at h2 hbit
    omega
  · refine ⟨2, by omega, eq_false_of_ne_true fun hbit => ?_⟩
    rw [h.marked 2 (by omega)] at hbit
    exact hbit.elim (by omega) h2

theorem only_map {map n : Node} {k : ℕ} (h : (update (fun _ => none) 0 (some map) : Nodes) k = some n) : k = 0 ∧ n = map := by
  rw [update_apply] at h
  split_ifs at h with hk
  exact ⟨hk, (Option.some.inj h).symm⟩

theorem rootCreate_run {map : Node} (h : MapCreated s size file map) (h4 : 4 ≤ size) (hle : size ≤ 2 ^ 31) :
    ∃ t nodes, (dirCreate 1 16).run s = .ok (true, t) ∧ Inv t nodes [] ∧ Fresh nodes ∧ t.freeMapFile = some file ∧
      ∀ g ≠ file, t.files.get g = none := by
  set nodes : Nodes := update (fun _ => none) 0 (some map) with hnodes
  have hself : nodes 0 = some map := update_self ..
  have hlen : map.content.length = Bitmap.byteCnt size := by
    rw [h.content_eq, Bitmap.length_toBytes, h.bitCnt_eq]
  have hone : sectorsOf 320 = 1 := rfl
  have hmf : MapFile s file map.data := mapFile_of_node h.opened h.layout (h.size_eq ▸ hle) hself
    (by rw [hlen, h.bitCnt_eq]) h.fileSector
  rcases inodeCreate_run h.memory (h.bitCnt_eq.trans h.size_eq.symm) (h.size_eq ▸ hle)
      (show 1 < s.size by rw [h.size_eq]; omega) h.freeMapFile hmf (show 320 < 2 ^ 31 by decide) with
    ⟨start, hrun, hstart, hfree, -⟩ | ⟨-, hno⟩
  · rw [h.size_eq] at hstart
    have hbit : s.freeMap.bits start = false := hfree 0 (by omega)
    have hnot : ¬ (start < 2 ∨ map.Has start) := by
      rw [← h.marked start (by omega), hbit]
      exact Bool.false_ne_true
    rw [not_or] at hnot
    set b := s.freeMap.fill start 1 true with hb
    have hmark : ∀ {x}, s.freeMap.bits x = true ∨ x = start → b.bits x = true := by
      intro x hx
      refine Bitmap.fill_true (hx.imp id fun hx => ?_)
      omega
    have hbytes : b.toBytes.length = map.content.length := by
      rw [Bitmap.length_toBytes, hlen]
      change Bitmap.byteCnt s.freeMap.bitCnt = _
      rw [h.bitCnt_eq]
    -- the free map and then the directory
    have hlayout0 : Layout s.size b.bits nodes :=
      h.layout.mark (fun hn => hmark (.inl (h.layout.inode_marked hn)))
        (fun hn hx => hmark (.inl (h.layout.data_marked hn hx)))
    have hlayout1 := hlayout0.write hself hbytes
    have hstored1 : AllStored (store s.disk (512 * map.start + 0) b.toBytes) _ :=
      h.stored.write h.layout hself (by omega)
    rw [overwrite_all hbytes] at hstored1
    set nodes1 := update nodes 0 (some (⟨map.start, b.toBytes⟩ : Node)) with hnodes1
    have honly1 : ∀ {k n}, nodes1 k = some n → k = 0 ∧ ∀ x, n.Has x ↔ map.Has x := by
      intro k n hn
      rw [hnodes1, hnodes, update_idem] at hn
      obtain ⟨rfl, rfl⟩ := only_map hn
      refine ⟨rfl, fun x => ?_⟩
      unfold Node.Has Node.sectors
      rw [hbytes]
    have hhas : ∀ x, (⟨start, replicate 320 0⟩ : Node).Has x ↔ x = start := by
      unfold Node.Has Node.sectors
      rw [length_replicate, hone]
      dsimp only
      omega
    have hunowned : ∀ {k n x}, nodes1 k = some n → x = 1 ∨ x = start → k ≠ x ∧ ¬ n.Has x := by
      intro k n x hn hx
      obtain ⟨rfl, hiff⟩ := honly1 hn
      rw [hiff]
      have h2 := h.start_le
      rcases hx with rfl | rfl
      · exact ⟨by decide, fun h1 => by have := h1.1; omega⟩
      · exact ⟨by omega, hnot.2⟩
    set root : Node := ⟨start, replicate 320 0⟩ with hroot
    have hnew : update nodes1 1 (some root) 1 = some root := update_self ..
    have hfresh : Fresh (update nodes1 1 (some root)) := by
      refine ⟨fun k n hn => ?_, root, hnew, rfl⟩
      rw [update_apply] at hn
      split_ifs at hn with hk
      · omega
      · have := (honly1 hn).1
        omega
    refine ⟨_, update nodes1 1 (some root), hrun, ⟨h.memory, ?_, ?_, ?_, ?_, ?_, ⟨file, h.freeMapFile,
      h.fileSector⟩, ?_, ⟨root, hnew, dirOk_zeros _⟩⟩, hfresh, h.freeMapFile, h.files⟩
    · exact h.size_eq ▸ hle
    · exact h.bitCnt_eq.trans h.size_eq.symm
    · refine AllStored.insert hstored1 (fun hn => hunowned hn (.inl rfl)) (fun hn h1 h2 => hunowned hn (.inr ?_)) ?_
      · rw [hone] at h2
        omega
      · rw [hone]
        omega
    · refine hlayout1.insert (by rw [length_replicate]; decide) (by rw [h.size_eq]; omega) ?_ ?_ (fun hx => ?_)
        (fun hn => hunowned hn (.inl rfl)) (fun hn hx => hunowned hn (.inr ((hhas _).1 hx))) ?_
      · change start + sectorsOf (replicate 320 (0 : UInt8)).length ≤ s.size
        rwa [length_replicate, hone, h.size_eq]
      · exact hmark (.inl ((h.marked 1 (by omega)).2 (.inl (by decide))))
      · exact hmark (.inr ((hhas _).1 hx))
      · rw [hhas]
        omega
    · refine h.opened.congr rfl rfl rfl (fun hn => ?_) (fun {i n} hn => ?_)
      · have hdata := (h.opened.inode hn).data_eq
        obtain ⟨nd, hnd, -⟩ := Option.map_eq_some_iff.1 hdata
        rw [(only_map hnd).1, Nodes.data_update, if_neg (by decide), Nodes.data_write hself hbytes]
      · obtain ⟨nd, hnd, -⟩ := Option.map_eq_some_iff.1 (h.opened.inode hn).data_eq
        rw [hfresh.kept, (only_map hnd).1]
    · refine ⟨⟨map.start, b.toBytes⟩, ?_, holdsMap_toBytes b⟩
      rw [update_of_ne (by decide)]
      exact update_self ..
  · obtain ⟨k, hk, hfree⟩ := h.free_sector h4
    obtain ⟨j, hj, hbit⟩ := hno (by decide) k (by rw [h.size_eq, hone]; omega)
    obtain rfl : j = 0 := by omega
    rw [Nat.add_zero, hfree] at hbit
    cases hbit

/-! ## Closing and opening the free map -/

theorem freeMapClose_run (h : Inv s nodes []) (hfile : s.freeMapFile = some file)
    (hothers : ∀ g ≠ file, s.files.get g = none) :
    ∃ t, freeMapClose.run s = .ok ((), t) ∧ SameDisk s t ∧ OpenInv t nodes.data (Kept nodes) [] ∧
      ∀ g, t.files.get g = none := by
  obtain ⟨file', hfile', hsec⟩ := h.mapFile
  cases hfile.symm.trans hfile'
  obtain ⟨f, hf, hinode⟩ := Option.bind_eq_some_iff.1 hsec
  obtain ⟨n, hn, h0⟩ := Option.map_eq_some_iff.1 hinode
  obtain ⟨map, hmap, -⟩ := h.mapNode
  have hremoved : ¬ (n.removed = true ∧ n.openCnt = 1) := by
    rintro ⟨hr, -⟩
    exact (h.opened.inode hn).removed_iff.1 hr (by rw [h0]; exact .inl (by decide))
  have hw : f.denyWrite = false := h.opened.system_file hf hn (by omega)
  have hopen := (h.opened.closeFile hf hw).close hn (fun _ _ => rfl) (fun _ _ => Iff.rfl)
  obtain ⟨o, h', he⟩ := closeInode_eq (s.withFiles (s.files.free file)) f.inode n
  refine ⟨(s.withFiles (s.files.free file)).closeInode f.inode n, ?_, ?_, hopen, fun g => ?_⟩
  · unfold freeMapClose
    rw [run_bind_get, hfile]
    unfold fileClose
    rw [run_bind_ok (fileAllowWrite_run_of_not hf hw), run_bind_ok (getFile_run hf),
      run_bind_ok (h.closed_run hmap hn),
      run_modify, files_closed, closed_withFiles]
    unfold Fs.closed
    rw [if_neg hremoved]
  · rw [he]
    exact ⟨rfl, rfl, rfl, rfl⟩
  · rw [he]
    change (s.files.free file).get g = none
    rw [Heap.get_free]
    split_ifs with hg
    · rfl
    · exact hothers g hg

/-- **Opening the free map** reads the stored one, whatever is in memory. -/
theorem freeMapOpen_run {b : Bitmap} (hm : s.MemoryOk) (hpos : 0 < s.size) (hsize : s.size ≤ 2 ^ 31)
    (hcnt : s.freeMap.bitCnt = s.size) (hb : b.bitCnt = s.size) (hstored : AllStored s.disk nodes)
    (hlayout : Layout s.size b.bits nodes) (hopen : OpenInv s nodes.data (Kept nodes) [])
    (hmap : ∃ n, nodes 0 = some n ∧ HoldsMap n.content b)
    (hroot : ∃ n, nodes 1 = some n ∧ DirOk n.content nodes) (hnone : ∀ g, s.files.get g = none) :
    ∃ t file, freeMapOpen.run s = .ok ((), t) ∧ Inv t nodes [] ∧ t.freeMapFile = some file ∧
      ∀ g ≠ file, t.files.get g = none := by
  obtain ⟨map, hmap, hholds⟩ := hmap
  have hdata : nodes.data 0 = some (InodeDisk.ofBytes (slice s.disk (512 * 0) 512)) := by
    unfold Nodes.data
    rw [hmap, (hstored 0 map hmap).ofBytes hlayout hsize hmap]
    rfl
  obtain ⟨file, t, hrun, hsame, hopen1, hfile, hsec, hfiles⟩ :=
    openMapFile_run hopen hm hpos hdata (.inl (by decide))
  have hlen : map.content.length = Bitmap.byteCnt t.freeMap.bitCnt := by rw [hholds.1, hb, hsame.freeMap, hcnt]
  have hmf : MapFile t file map.data :=
    mapFile_of_node hopen1 (hsame.size ▸ hlayout) (hsame.size ▸ hsize) hmap hlen hsec
  have hread := bitmapRead_run (hsame.memory.trans hm) hmf (by rwa [hsame.freeMap, hcnt]) hlen
    (by rw [hsame.disk]; exact (hstored 0 map hmap).content)
  have hcnt1 : t.freeMap.bitCnt = t.size := by rw [hsame.freeMap, hsame.size, hcnt]
  have hbits : ∀ x < s.size, (Bitmap.ofBytes t.freeMap.bitCnt map.content).bits x = b.bits x := by
    intro x hx
    rw [hsame.freeMap, hcnt, ← hb]
    exact hholds.2 x (by rwa [hb])
  refine ⟨t.withFreeMap (.ofBytes t.freeMap.bitCnt map.content), file, ?_, ⟨hsame.memory.trans hm, hsame.size ▸ hsize, hcnt1, ?_,
    ?_, hopen1.congr rfl rfl rfl (fun _ => rfl) (fun _ => Iff.rfl), ⟨file, hfile, hsec⟩, ⟨map, hmap, hlen, fun x hx => rfl⟩,
    hroot⟩, hfile, fun g hg => (hfiles g hg).trans (hnone g)⟩
  · unfold freeMapOpen
    rw [run_bind_ok hrun, run_bind_ok hread]
    rfl
  · change AllStored t.disk nodes
    rwa [hsame.disk]
  · change Layout t.size _ nodes
    rw [hsame.size]
    refine hlayout.mark (fun hn => ?_) (fun {k n x} hn hx => ?_)
    · exact (hbits _ (hlayout.inode_lt hn)).trans (hlayout.inode_marked hn)
    · refine (hbits x ?_).trans (hlayout.data_marked hn hx)
      have := hlayout.data_le hn
      have := hx.2
      omega

theorem freeMapInit_run (hm : s.MemoryOk) (junk : ℕ → Bool) :
    (freeMapInit junk).run s = .ok ((), s.withFreeMap (.initial s.size junk)) := by
  have hcreate : (bitmapCreate junk).run s = .ok (some (.create s.size junk), s) := by
    unfold bitmapCreate
    rw [run_bind_ok (malloc_run hm), if_pos rfl, run_bind_ok (malloc_run hm),
      run_bind_get]
    rfl
  unfold freeMapInit
  rw [run_bind_ok hcreate]
  rfl

/-- The kernel when `filesys_init` is about to format the device. -/
def Fs.blank (disk : ℕ → UInt8) (size : ℕ) (junk : ℕ → Bool) : Fs :=
  (Fs.boot disk size fun _ => true).withFreeMap (.initial size junk)

theorem filesysInit_eq (disk : ℕ → UInt8) (size : ℕ) (junk : ℕ → Bool) :
    (filesysInit true junk).run (.boot disk size fun _ => true) =
      (doFormat >>= fun _ => freeMapOpen).run (.blank disk size junk) := by
  unfold filesysInit
  rw [run_bind_modify, run_bind_ok (freeMapInit_run _ junk), if_pos rfl]
  · rfl
  · rfl

theorem blank_freeMapCreate_run (disk : ℕ → UInt8) (junk : ℕ → Bool) (h3 : 3 ≤ size) (hle : size ≤ 2 ^ 31) :
    ∃ t file map, freeMapCreate.run (.blank disk size junk) = .ok ((), t) ∧ MapCreated t size file map :=
  freeMapCreate_run rfl h3 hle rfl rfl rfl rfl (fun _ => rfl) fun _ => rfl

/-- **Formatting** a device with four sectors or more completes and leaves no files. -/
theorem filesysInit_run (disk : ℕ → UInt8) (junk : ℕ → Bool) (h4 : 4 ≤ size) (hle : size ≤ 2 ^ 31) :
    ∃ t nodes file, (filesysInit true junk).run (.boot disk size fun _ => true) = .ok ((), t) ∧ Inv t nodes [] ∧
      Fresh nodes ∧ t.freeMapFile = some file ∧ ∀ g ≠ file, t.files.get g = none := by
  obtain ⟨s1, file1, map, hrun1, h₁⟩ := blank_freeMapCreate_run disk junk (by omega) hle
  obtain ⟨s2, nodes, hrun2, h₂, hfresh, hfile2, hothers2⟩ := rootCreate_run h₁ h4 hle
  obtain ⟨s3, hrun3, hsame, hopen3, hnone3⟩ := freeMapClose_run h₂ hfile2 hothers2
  have hsize2 : 0 < s2.size := by
    obtain ⟨map, hmap, -⟩ := h₂.mapNode
    have := h₂.layout.inode_lt hmap
    omega
  obtain ⟨t, file, hrun4, h₄, hfile, hothers⟩ := freeMapOpen_run (hsame.memory.trans h₂.memory)
    (hsame.size ▸ hsize2) (hsame.size ▸ h₂.size_le) (by rw [hsame.freeMap, hsame.size]; exact h₂.bitCnt_eq)
    (hsame.size ▸ h₂.bitCnt_eq) (hsame.disk ▸ h₂.stored) (hsame.size ▸ h₂.layout) hopen3 h₂.mapNode h₂.root hnone3
  refine ⟨t, nodes, file, ?_, h₄, hfresh, hfile, hothers⟩
  have hformat : doFormat.run (.blank disk size junk) = .ok ((), s3) := by
    unfold doFormat
    rwa [run_bind_ok hrun1, run_bind_ok hrun2]
  rw [filesysInit_eq, run_bind_ok hformat]
  exact hrun4

theorem three_le_of_freeMapCreate (h : freeMapCreate.run (.blank disk size junk) = .ok ((), t)) :
    3 ≤ size := by
  by_contra hlt
  unfold freeMapCreate at h
  rw [run_bind_get, show (Fs.blank disk size junk).freeMap.bitCnt = size from rfl] at h
  obtain ⟨created, s1, hcreate, h⟩ := ok_of_run_bind h
  unfold inodeCreate at hcreate
  have hm : (Fs.blank disk size junk).MemoryOk := rfl
  rw [if_neg (by omega), run_bind_ok (malloc_run hm), if_pos rfl] at hcreate
  have hcnt : bytesToSectors (Bitmap.byteCnt size : ℕ) = sectorsOf (Bitmap.byteCnt size) :=
    bytesToSectors_eq (by unfold Bitmap.byteCnt Bitmap.elemCnt; omega)
  rcases freeMapAllocate_run_of_none (s := .blank disk size junk) (bytesToSectors (Bitmap.byteCnt size : ℕ))
      (show size < _ by omega) rfl with ⟨k, hk, hle, hfree⟩ | ⟨hk, -⟩
  · change k + _ ≤ size at hle
    rcases Nat.eq_zero_or_pos size with rfl | hpos
    · -- no sector 0: `inode_create` writes past the end of the device
      rw [run_bind_ok hk] at hcreate
      obtain ⟨_, _, hwrite, -⟩ := ok_of_run_bind hcreate
      cases hwrite
    · have h1 : sectorsOf (Bitmap.byteCnt size) = 1 := by
        unfold sectorsOf Bitmap.byteCnt Bitmap.elemCnt
        omega
      have hbit := hfree 0 (by omega)
      rw [show (Fs.blank disk size junk).freeMap = .initial size junk from rfl, initial_bits (by omega)] at hbit
      have := of_decide_eq_false hbit
      omega
  · rw [run_bind_ok hk] at hcreate
    cases hcreate
    cases h

theorem four_le_of_filesysInit
    (h : (filesysInit true junk).run (.boot disk size fun _ => true) = .ok ((), t)) : 4 ≤ size := by
  rw [filesysInit_eq] at h
  obtain ⟨_, _, hformat, -⟩ := ok_of_run_bind h
  obtain ⟨_, s1, hmap, hformat⟩ := ok_of_run_bind hformat
  obtain ⟨created, s2, hroot, hformat⟩ := ok_of_run_bind hformat
  have h3 := three_le_of_freeMapCreate hmap
  by_contra hlt
  obtain rfl : size = 3 := by omega
  obtain ⟨t', file, map, hrun, hcreated⟩ := blank_freeMapCreate_run disk junk h3 (by decide)
  obtain ⟨-, rfl⟩ := ok_inj (hrun.symm.trans hmap)
  have hlen : map.content.length = Bitmap.byteCnt 3 := by
    rw [hcreated.content_eq, Bitmap.length_toBytes, hcreated.bitCnt_eq]
  have hmf : MapFile t' file map.data := mapFile_of_node hcreated.opened hcreated.layout
    (by rw [hcreated.size_eq]; decide) (update_self ..) (by rw [hlen, hcreated.bitCnt_eq]) hcreated.fileSector
  unfold dirCreate at hroot
  rcases inodeCreate_run hcreated.memory (hcreated.bitCnt_eq.trans hcreated.size_eq.symm)
      (by rw [hcreated.size_eq]; decide) (show 1 < t'.size by rw [hcreated.size_eq]; decide) hcreated.freeMapFile hmf
      (show 320 < 2 ^ 31 by decide) with ⟨start, -, hstart, hfree, -⟩ | ⟨hnone, -⟩
  · have hone : sectorsOf 320 = 1 := rfl
    rw [hcreated.size_eq] at hstart
    -- the free map is in the third sector
    have hlast : map.start = 2 ∧ map.sectors = 1 := by
      have h1 : map.sectors = 1 := by
        unfold Node.sectors
        rw [hlen]
        rfl
      have := hcreated.layout.data_le (update_self ..)
      rw [hcreated.size_eq] at this
      have := hcreated.start_le
      omega
    have hbit := hfree 0 (by decide)
    have hmark := (hcreated.marked start (by omega)).2 (by
      unfold Node.Has
      omega)
    rw [Nat.add_zero, hmark] at hbit
    cases hbit
  · obtain ⟨rfl, -⟩ := ok_inj (hnone.symm.trans hroot)
    cases hformat

/-- Only the free map is open: the store has no handles. -/
theorem sim_of_unopened {a : Store} (h : Inv s nodes []) (hfile : s.freeMapFile = some file)
    (hothers : ∀ g ≠ file, s.files.get g = none) (hnames : ∀ name k, a.names name = some k ↔ Bound nodes name k)
    (hbytes : ∀ k n, 2 ≤ k → nodes k = some n → a.bytes k = n.content) (hhandles : a.handles = fun _ => none) : Sim s a := by
  have hallowed : s.Allowed := by
    intro g f hf
    obtain ⟨file', hfile', hsec⟩ := h.mapFile
    cases hfile.symm.trans hfile'
    obtain rfl : g = file := by_contra fun hg => by rw [hothers g hg] at hf; cases hf
    rw [Fs.fileSector_eq, hf] at hsec
    obtain ⟨n, hn, h0⟩ := Option.map_eq_some_iff.1 hsec
    exact h.opened.system_file hf hn (by omega)
  refine ⟨nodes, h, hallowed, hnames, hbytes, hhandles.trans (funext fun g => ?_), fun g k hg hk => ?_⟩
  · unfold Fs.handle
    split_ifs with hg
    · rfl
    · rw [hothers g (fun he => hg (he ▸ hfile))]
      cases s.fileSector g <;> rfl
  · rw [Fs.fileSector_eq, hothers g (fun he => hg (he ▸ hfile))] at hk
    cases hk

theorem sim_of_filesysInit {s0 : Fs} (hle : size ≤ 2 ^ 31)
    (hformat : (filesysInit true junk).run (.boot disk size fun _ => true) = .ok ((), s0)) : Sim s0 .empty := by
  obtain ⟨t, nodes, file, hrun, hinv, hfresh, hfile, hothers⟩ :=
    filesysInit_run disk junk (four_le_of_filesysInit hformat) hle
  obtain ⟨-, rfl⟩ := ok_inj (hrun.symm.trans hformat)
  exact sim_of_unopened hinv hfile hothers (fun name k => ⟨nofun, fun hb => absurd hb (hfresh.not_bound name k)⟩)
    (fun k n hk hn => absurd (hfresh.lt_two k n hn) (by omega)) rfl

/-- **The file system refines the store.**  On a device that was just formatted, every run of
    calls is a run of the store, with the same results, and every call completes. -/
theorem filesys_refines_store {disk : ℕ → UInt8} {junk : ℕ → Bool} {size : ℕ} {s0 : Fs} (hle : size ≤ 2 ^ 31)
    (hformat : (filesysInit true junk).run (.boot disk size fun _ => true) = .ok ((), s0)) :
    ∀ calls s, Runs Fs.Step s0 calls s →
      (∃ a, Runs Store.Step .empty calls a) ∧
        ∀ op : Op, op.Enabled s → op.SizeOk → ∃ r t, op.exec.run s = .ok (r, t) := by
  intro calls s hruns
  obtain ⟨a, ha, hsim⟩ := hruns.simulate sim_simulates (sim_of_filesysInit hle hformat)
  refine ⟨⟨a, ha⟩, fun op he hsize => ?_⟩
  obtain ⟨r, t, -, hcall, -⟩ := hsim.call op he hsize
  exact ⟨r, t, hcall⟩

def nameE : Name := ⟨[101], by decide⟩

/-- A file is created, written and read back. -/
def readBack : List (Op × Result) :=
  [(.create nameE 3, .bool true), (.open_ nameE, .file (some 2)),
    (.write 2 (fun i => .ofNat (i + 7)) 3, .count 3), (.seek 2 0, .done), (.read 2 3, .bytes [7, 8, 9])]

theorem filesys_refines_store_create :
    ∃ s0 t a, (filesysInit true fun _ => false).run (.boot (fun _ => 0) 16 fun _ => true) = .ok ((), s0) ∧
      Runs Fs.Step s0 readBack t ∧ Runs Store.Step .empty readBack a := by
  obtain ⟨_, s0, hformat, hrun⟩ : Prog.Returns (filesysInit true fun _ => false) (.boot (fun _ => 0) 16 fun _ => true)
      fun _ s0 => (readBack.foldlM Fs.expect s0).isSome = true := .of_eval (by decide +kernel)
  obtain ⟨t, ht⟩ := Option.isSome_iff_exists.1 hrun
  have hruns := Runs.of_eval Fs.step_of_expect ht
  obtain ⟨a, ha⟩ := (filesys_refines_store (by decide) hformat _ t hruns).1
  exact ⟨s0, t, a, hformat, hruns, ha⟩

end Pintos
