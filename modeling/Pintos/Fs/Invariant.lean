/-
  The invariant of the file system.

  `Inv s nodes refs` says what is on the disk and in memory between two calls: the nodes are
  stored apart from each other, node 0 holds the free map and node 1 the root directory, whose
  entries in use have distinct names and distinct inodes, and the open inodes are references to
  nodes.  While a call runs, `refs` are the references it holds.
-/
import Pintos.Fs.Filesys
import Pintos.Fs.Layout
import Pintos.Fs.OpenInodes

namespace Pintos

open Lib Function List

/-- An entry in use of the directory with the content `c` has the inode `k`. -/
def Names (c : List UInt8) (k : ℕ) : Prop := ∃ i < 16, (entryAt c i).inUse = true ∧ (entryAt c i).inodeSector = k

/-- The root directory: names end inside their array, and names and inodes of entries in use are
    distinct. -/
structure DirOk (c : List UInt8) (nodes : Nodes) : Prop where
  length_eq : c.length = 20 * 16
  name_le : ∀ {i}, i < 16 → (entryAt c i).inUse = true → (cstr (entryAt c i).name).length ≤ 14
  node : ∀ {i}, i < 16 → (entryAt c i).inUse = true →
    2 ≤ (entryAt c i).inodeSector ∧ ∃ n, nodes (entryAt c i).inodeSector = some n
  name_inj : ∀ {i j}, i < 16 → j < 16 → (entryAt c i).inUse = true → (entryAt c j).inUse = true →
    cstr (entryAt c i).name = cstr (entryAt c j).name → i = j
  sector_inj : ∀ {i j}, i < 16 → j < 16 → (entryAt c i).inUse = true → (entryAt c j).inUse = true →
    (entryAt c i).inodeSector = (entryAt c j).inodeSector → i = j

variable {c : List UInt8}

theorem DirOk.slots_eq {nodes : Nodes} (h : DirOk c nodes) : c.length / 20 = 16 := by
  rw [h.length_eq]

/-- The nodes that are not removed. -/
def Kept (nodes : Nodes) (k : ℕ) : Prop := k < 2 ∨ ∃ n, nodes 1 = some n ∧ Names n.content k

/-- The inodes of the nodes. -/
def Nodes.data (nodes : Nodes) (k : ℕ) : Option InodeDisk := (nodes k).map Node.data

structure Inv (s : Fs) (nodes : Nodes) (refs : List ℕ) : Prop where
  memory : s.MemoryOk
  size_le : s.size ≤ 2 ^ 31
  bitCnt_eq : s.freeMap.bitCnt = s.size
  stored : AllStored s.disk nodes
  layout : Layout s.size s.freeMap.bits nodes
  opened : OpenInv s nodes.data (Kept nodes) refs
  mapFile : ∃ f, s.freeMapFile = some f ∧ s.fileSector f = some 0
  mapNode : ∃ n, nodes 0 = some n ∧ HoldsMap n.content s.freeMap
  root : ∃ n, nodes 1 = some n ∧ DirOk n.content nodes

/-- The files are open on the same inodes. -/
structure SameFiles (s t : Fs) : Prop where
  files : t.files = s.files
  fileSector : t.fileSector = s.fileSector
  freeMapFile : t.freeMapFile = s.freeMapFile

theorem SameFiles.trans {s t u : Fs} (h : SameFiles s t) (h' : SameFiles t u) : SameFiles s u :=
  ⟨h'.files.trans h.files, h'.fileSector.trans h.fileSector, h'.freeMapFile.trans h.freeMapFile⟩

variable {s : Fs} {nodes : Nodes} {refs : List ℕ} {i k file : ℕ} {n : Inode} {nd map : Node}

namespace Inv

section

variable (h : Inv s nodes refs)
include h

theorem node (hn : s.inodes.get i = some n) :
    ∃ nd, nodes n.sector = some nd ∧ nd.data = n.data :=
  Option.map_eq_some_iff.1 (h.opened.inode hn).data_eq

theorem inDevice (hk : nodes k = some nd) : InDevice s nd.data := by
  have h1 := h.layout.length_lt hk
  have h2 := h.size_le
  exact ⟨Int.natCast_nonneg _, by change ((nd.content.length : ℕ) : ℤ) < _; omega, h.layout.data_le hk, by omega⟩

theorem content (hn : s.inodes.get i = some n) (hk : nodes n.sector = some nd) :
    Content s i n nd.content := by
  obtain ⟨nd', hk', hdata⟩ := h.node hn
  cases hk.symm.trans hk'
  refine ⟨hn, hdata ▸ h.inDevice hk, hdata ▸ rfl, ?_⟩
  rw [← hdata]
  exact (h.stored _ _ hk).content

theorem mapFile_ok (hmap : nodes 0 = some map) :
    ∃ f, s.freeMapFile = some f ∧ MapFile s f map.data := by
  obtain ⟨f, hf, hsec⟩ := h.mapFile
  obtain ⟨n0, hn0, hcontent⟩ := h.mapNode
  cases hmap.symm.trans hn0
  obtain ⟨fl, hfl, hinode⟩ := Option.bind_eq_some_iff.1 hsec
  obtain ⟨n, hn, hzero⟩ := Option.map_eq_some_iff.1 hinode
  obtain ⟨nd, hnd, hdata⟩ := h.node hn
  rw [hzero] at hnd
  cases hmap.symm.trans hnd
  refine ⟨f, hf, ⟨fl, n, hfl, hn, hdata.symm, (h.opened.inode hn).allowed (by omega)⟩, h.inDevice hmap, ?_⟩
  change ((map.content.length : ℕ) : ℤ) = _
  rw [hcontent.1]

theorem ofBytes (hk : nodes k = some nd) :
    nodes.data k = some (InodeDisk.ofBytes (slice s.disk (512 * k) 512)) := by
  unfold Nodes.data
  rw [hk, (h.stored _ _ hk).ofBytes h.layout h.size_le hk]
  rfl

theorem kept_node (hk : Kept nodes k) : ∃ nd, nodes k = some nd := by
  rcases hk with hk | ⟨root, hroot, j, hj, huse, rfl⟩
  · obtain ⟨map, hmap, -⟩ := h.mapNode
    obtain ⟨root, hroot, -⟩ := h.root
    rcases Nat.lt_or_ge k 1 with h1 | h1
    · obtain rfl : k = 0 := by omega
      exact ⟨map, hmap⟩
    · obtain rfl : k = 1 := by omega
      exact ⟨root, hroot⟩
  · obtain ⟨root', hroot', hdir⟩ := h.root
    cases hroot.symm.trans hroot'
    exact (hdir.node hj huse).2

theorem not_owned {x : ℕ} (hx : s.freeMap.bits x = false) (hk : nodes k = some nd) :
    k ≠ x ∧ ¬ nd.Has x := by
  constructor
  · rintro rfl
    rw [h.layout.inode_marked hk] at hx
    cases hx
  · intro hhas
    rw [h.layout.data_marked hk hhas] at hx
    cases hx

end

end Inv

theorem DirOk.congr {nodes' : Nodes} (h : DirOk c nodes)
    (hnodes : ∀ {k}, Names c k → (∃ n, nodes k = some n) → ∃ n, nodes' k = some n) : DirOk c nodes' :=
  ⟨h.length_eq, h.name_le, fun hi huse => ⟨(h.node hi huse).1, hnodes ⟨_, hi, huse, rfl⟩ (h.node hi huse).2⟩,
    h.name_inj, h.sector_inj⟩

theorem kept_congr {nodes' : Nodes} (h : nodes' 1 = nodes 1) (k : ℕ) : Kept nodes' k ↔ Kept nodes k := by
  unfold Kept
  rw [h]

theorem Nodes.data_update (nodes : Nodes) (k : ℕ) (o : Option Node) (j : ℕ) :
    Nodes.data (update nodes k o) j = if j = k then o.map Node.data else nodes.data j := by
  unfold Nodes.data
  rw [update_apply]
  split_ifs <;> rfl

theorem Nodes.data_write (hk : nodes k = some nd) (hlen : c.length = nd.content.length) (j : ℕ) :
    Nodes.data (update nodes k (some ⟨nd.start, c⟩)) j = nodes.data j := by
  rw [Nodes.data_update]
  split_ifs with hj
  · unfold Nodes.data
    rw [hj, hk]
    unfold Node.data
    rw [Option.map_some, Option.map_some, hlen]
  · rfl

/-! ## Changes of the disk -/

namespace Inv

/-- **Writing** into a file. -/
theorem write {ofs : ℕ} {l : List UInt8} (h : Inv s nodes refs) (hk : nodes k = some nd) (h2 : 2 ≤ k)
    (hle : ofs + l.length ≤ nd.content.length) :
    Inv (s.withDisk (store s.disk (512 * nd.start + ofs) l))
      (update nodes k (some ⟨nd.start, overwrite nd.content ofs l⟩)) refs := by
  have hlen : (overwrite nd.content ofs l).length = nd.content.length := length_overwrite hle
  have h0 : ∀ {j}, j < 2 → update nodes k (some ⟨nd.start, overwrite nd.content ofs l⟩) j = nodes j :=
    fun hj => update_of_ne (by omega) ..
  refine ⟨h.memory, h.size_le, h.bitCnt_eq, h.stored.write h.layout hk hle, h.layout.write hk hlen, ?_,
    h.mapFile, ?_, ?_⟩
  · exact h.opened.congr rfl rfl rfl (fun _ => Nodes.data_write hk hlen _)
      (fun _ => kept_congr (h0 (by decide)) _)
  · rw [h0 (by decide)]
    exact h.mapNode
  · rw [h0 (by decide)]
    obtain ⟨root, hroot, hdir⟩ := h.root
    refine ⟨root, hroot, hdir.congr fun _ hn => ?_⟩
    rw [update_apply]
    split_ifs
    · exact ⟨_, rfl⟩
    · exact hn

/-- **A new free map** that marks the sectors of the nodes. -/
theorem putMap {b : Bitmap} (h : Inv s nodes refs) (hmap : nodes 0 = some map)
    (hb : b.bitCnt = s.freeMap.bitCnt) (hk : ∀ {k n}, nodes k = some n → b.bits k = true)
    (hx : ∀ {k n x}, nodes k = some n → n.Has x → b.bits x = true) :
    Inv (s.putMap map.data b) (update nodes 0 (some ⟨map.start, b.toBytes⟩)) refs := by
  obtain ⟨n0, hn0, hcontent⟩ := h.mapNode
  cases hmap.symm.trans hn0
  have hlen : b.toBytes.length = map.content.length := by
    rw [hcontent.1, Bitmap.length_toBytes, hb]
  have hone : update nodes 0 (some (⟨map.start, b.toBytes⟩ : Node)) 1 = nodes 1 :=
    update_of_ne (by decide) ..
  have hall : AllStored (store s.disk (512 * map.start + 0) b.toBytes) _ := h.stored.write h.layout hmap (by omega)
  have hover : overwrite map.content 0 b.toBytes = b.toBytes := by
    unfold overwrite
    rw [take_zero, nil_append, drop_of_length_le (by omega), append_nil]
  rw [hover] at hall
  refine ⟨h.memory, h.size_le, hb.trans h.bitCnt_eq, hall, ?_, ?_, h.mapFile,
    ⟨_, update_self .., holdsMap_toBytes b⟩, ?_⟩
  · refine Layout.write (h.layout.mark hk hx) hmap hlen
  · exact h.opened.congr rfl rfl rfl (fun _ => Nodes.data_write hmap hlen _) (fun _ => kept_congr hone _)
  · rw [hone]
    obtain ⟨root, hroot, hdir⟩ := h.root
    refine ⟨root, hroot, hdir.congr fun _ hn => ?_⟩
    rw [update_apply]
    split_ifs
    · exact ⟨_, rfl⟩
    · exact hn

/-- **A new node** on sectors that are marked and belong to no node. -/
theorem insert {start len : ℕ} (h : Inv s nodes refs) (hlen : len + 511 < 2 ^ 31) (hlt : k < s.size)
    (hle : start + sectorsOf len ≤ s.size) (hkm : s.freeMap.bits k = true)
    (hxm : ∀ x, start ≤ x → x < start + sectorsOf len → s.freeMap.bits x = true)
    (hk : ∀ {k' n'}, nodes k' = some n' → k' ≠ k ∧ ¬ n'.Has k)
    (hx : ∀ {k' n' x}, nodes k' = some n' → start ≤ x → x < start + sectorsOf len → k' ≠ x ∧ ¬ n'.Has x)
    (hself : ¬ (start ≤ k ∧ k < start + sectorsOf len)) :
    Inv (s.withDisk (newInode s.disk k start len))
      (update nodes k (some ⟨start, List.replicate len 0⟩)) refs := by
  have hsectors : (⟨start, replicate len 0⟩ : Node).sectors = sectorsOf len := by
    unfold Node.sectors
    rw [length_replicate]
  have hhas : ∀ {x}, (⟨start, replicate len 0⟩ : Node).Has x ↔ start ≤ x ∧ x < start + sectorsOf len := by
    unfold Node.Has
    rw [hsectors]
  obtain ⟨map, hmap, hcontent⟩ := h.mapNode
  obtain ⟨root, hroot, hdir⟩ := h.root
  have h0 : (0 : ℕ) ≠ k := (hk hmap).1
  have h1 : (1 : ℕ) ≠ k := (hk hroot).1
  refine ⟨h.memory, h.size_le, h.bitCnt_eq, h.stored.insert hk hx hself, ?_, ?_, h.mapFile, ?_, ?_⟩
  · refine h.layout.insert ?_ hlt ?_ hkm (fun hx => ?_) hk (fun hn hx' => ?_) (fun hx => ?_)
    · rwa [length_replicate]
    · rwa [hsectors]
    · exact hxm _ (hhas.1 hx).1 (hhas.1 hx).2
    · exact hx hn (hhas.1 hx').1 (hhas.1 hx').2
    · exact hself (hhas.1 hx)
  · refine h.opened.congr rfl rfl rfl (fun hn => ?_) (fun _ => kept_congr (update_of_ne h1 ..) _)
    obtain ⟨nd, hnd, -⟩ := h.node hn
    rw [Nodes.data_update, if_neg (hk hnd).1]
  · exact ⟨map, (update_of_ne h0 ..).trans hmap, hcontent⟩
  · refine ⟨root, (update_of_ne h1 ..).trans hroot, hdir.congr fun _ hn => ?_⟩
    obtain ⟨n', hn'⟩ := hn
    exact ⟨n', (update_of_ne (hk hn').1 ..).trans hn'⟩

theorem erase (h : Inv s nodes refs) (hkept : ¬ Kept nodes k)
    (hopen : ∀ {i n}, s.inodes.get i = some n → n.sector ≠ k) : Inv s (update nodes k none) refs := by
  obtain ⟨map, hmap, hcontent⟩ := h.mapNode
  obtain ⟨root, hroot, hdir⟩ := h.root
  have h0 : (0 : ℕ) ≠ k := fun hk => hkept (.inl (by omega))
  have h1 : (1 : ℕ) ≠ k := fun hk => hkept (.inl (by omega))
  refine ⟨h.memory, h.size_le, h.bitCnt_eq, h.stored.erase, h.layout.erase, ?_, h.mapFile, ?_, ?_⟩
  · refine h.opened.congr rfl rfl rfl (fun hn => ?_) (fun _ => kept_congr (update_of_ne h1 ..) _)
    rw [Nodes.data_update, if_neg (hopen hn)]
  · exact ⟨map, (update_of_ne h0 ..).trans hmap, hcontent⟩
  · refine ⟨root, (update_of_ne h1 ..).trans hroot, hdir.congr fun hnames hn => ?_⟩
    obtain ⟨n', hn'⟩ := hn
    refine ⟨n', (update_of_ne ?_ ..).trans hn'⟩
    rintro rfl
    exact hkept (.inr ⟨root, hroot, hnames⟩)

end Inv

end Pintos
