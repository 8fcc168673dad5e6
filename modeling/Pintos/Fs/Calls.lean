/-
  The parts of the calls keep the invariant of the file system.

  Opening and closing inodes, allocating sectors, creating an inode, and adding and removing a
  directory entry: each runs to completion from a state with the invariant, and the nodes after
  it are those before but for the one it is about.
-/
import Pintos.Fs.Invariant

namespace Pintos

open Lib Prog Function List

variable {s t : Fs} {nodes nodes' : Nodes} {refs : List ℕ} {i k x cnt file : ℕ} {n : Inode} {nd map : Node}
  {name : Name}

/-- The open inodes and files are the same. -/
structure SameMem (s t : Fs) : Prop where
  inodes : t.inodes = s.inodes
  files : t.files = s.files
  freeMapFile : t.freeMapFile = s.freeMapFile

theorem SameMem.sectorAt (h : SameMem s t) (j : ℕ) : t.sectorAt j = s.sectorAt j := by
  unfold Fs.sectorAt
  rw [h.inodes]

theorem SameMem.sameFiles (h : SameMem s t) : SameFiles s t := by
  refine ⟨h.files, ?_, h.freeMapFile⟩
  funext f
  rw [Fs.fileSector_eq, Fs.fileSector_eq, h.files]
  congr 1
  funext g
  exact h.sectorAt g.inode

/-- The sector belongs to no node. -/
def Unowned (nodes : Nodes) (x : ℕ) : Prop := ∀ k n, nodes k = some n → k ≠ x ∧ ¬ n.Has x

variable {b : Bitmap}

theorem Unowned.putMap (h : Unowned nodes x) (hmap : nodes 0 = some map)
    (hlen : b.toBytes.length = map.content.length) :
    Unowned (update nodes 0 (some ⟨map.start, b.toBytes⟩)) x := by
  intro k n hn
  rw [update_apply] at hn
  split_ifs at hn with hk
  · cases hn
    rw [hk]
    refine ⟨(h 0 map hmap).1, fun hhas => (h 0 map hmap).2 ?_⟩
    unfold Node.Has Node.sectors at hhas ⊢
    rwa [hlen] at hhas
  · exact h k n hn

/-! ## Opening and closing -/

/-- The inode in the sector `k` is opened; the reference is `i`. -/
structure Opens (s : Fs) (nodes : Nodes) (refs : List ℕ) (k i : ℕ) (t : Fs) : Prop where
  inv : Inv t nodes (i :: refs)
  sectorAt : t.sectorAt i = some k
  same : SameFiles s t
  refs : ∀ j ∈ refs, t.sectorAt j = s.sectorAt j

theorem Inv.withInodes {o : List ℕ} {h' : Heap Inode} {refs' : List ℕ} (h : Inv s nodes refs)
    (ho : OpenInv (s.withInodes o h') nodes.data (Kept nodes) refs')
    (hsec : (s.withInodes o h').fileSector = s.fileSector) : Inv (s.withInodes o h') nodes refs' := by
  obtain ⟨f, hf, h0⟩ := h.mapFile
  exact ⟨h.memory, h.size_le, h.bitCnt_eq, h.stored, h.layout, ho, ⟨f, hf, hsec ▸ h0⟩, h.mapNode, h.root⟩

theorem Inv.openInode (h : Inv s nodes refs) (hkept : Kept nodes k) :
    ∃ i t, (inodeOpen k).run s = .ok (some i, t) ∧ Opens s nodes refs k i t := by
  obtain ⟨nd, hnd⟩ := h.kept_node hkept
  obtain ⟨i, o, h', hrun, hopen, hsec, hold⟩ :=
    inodeOpen_run h.opened h.memory (h.layout.inode_lt hnd) (h.ofBytes hnd) hkept
  have hfs : (s.withInodes o h').fileSector = s.fileSector := by
    refine fileSector_withInodes fun f l hf => ?_
    obtain ⟨m, hm⟩ := h.opened.file_inode hf
    rw [hold _ m hm]
    unfold Fs.sectorAt
    rw [hm]
    rfl
  refine ⟨i, _, hrun, h.withInodes hopen hfs, hsec, ⟨rfl, hfs, rfl⟩, fun j hj => ?_⟩
  obtain ⟨m, hm⟩ := h.opened.ref_inode hj
  rw [hold _ m hm]
  unfold Fs.sectorAt
  rw [hm]
  rfl

theorem Inv.openRoot (h : Inv s nodes refs) :
    ∃ i t, dirOpenRoot.run s = .ok (some ⟨i⟩, t) ∧ Opens s nodes refs 1 i t := by
  obtain ⟨i, t, hrun, hopen⟩ := h.openInode (k := 1) (.inl (by decide))
  refine ⟨i, t, ?_, hopen⟩
  unfold dirOpenRoot dirOpen
  rw [run_bind_ok hrun, run_bind_ok (malloc_run hopen.inv.memory)]
  rfl

theorem closeInode_eq (s : Fs) (i : ℕ) (n : Inode) : ∃ o h', s.closeInode i n = s.withInodes o h' := by
  unfold Fs.closeInode
  split_ifs
  · exact ⟨_, _, rfl⟩
  · exact ⟨_, _, rfl⟩

theorem Inv.closeInode (h : Inv s nodes (i :: refs)) (hn : s.inodes.get i = some n) :
    Inv (s.closeInode i n) nodes refs := by
  have ho := h.opened.close hn (fun _ _ => rfl) (fun _ _ => Iff.rfl)
  have hsec := h.opened.fileSector_close hn
  obtain ⟨o, h', he⟩ := closeInode_eq s i n
  rw [he] at ho hsec ⊢
  exact h.withInodes ho hsec

/-- The state after a reference is closed. -/
def Fs.closed (s : Fs) (d : InodeDisk) (i : ℕ) (n : Inode) : Fs :=
  if n.removed = true ∧ n.openCnt = 1 then (s.closeInode i n).putMap d (s.freeMap.without n.sector n.data)
  else s.closeInode i n

theorem putMap_closeInode (d : InodeDisk) (b : Bitmap) :
    (s.putMap d b).closeInode i n = (s.closeInode i n).putMap d b := by
  unfold Fs.closeInode
  split_ifs <;> rfl

theorem Inv.closed_run (h : Inv s nodes refs) (hmap : nodes 0 = some map) (hn : s.inodes.get i = some n) :
    (inodeClose (some i)).run s = .ok ((), s.closed map.data i n) := by
  unfold Fs.closed
  split_ifs with hlast
  · obtain ⟨nd, hnd, hdata⟩ := h.node hn
    obtain ⟨f, hf, hmf⟩ := h.mapFile_ok hmap
    have hlen := h.layout.length_lt hnd
    rw [← putMap_closeInode]
    refine inodeClose_run_removed h.memory h.bitCnt_eq h.size_le hf hmf hn hlast.1 hlast.2 ?_
      ⟨h.layout.inode_lt hnd, h.layout.inode_marked hnd⟩ ?_
    · rw [← hdata]
      change 0 ≤ ((nd.content.length : ℕ) : ℤ) ∧ ((nd.content.length : ℕ) : ℤ) + 511 < _
      omega
    · rw [← hdata]
      refine ⟨h.layout.data_le hnd, fun x h1 h2 => ⟨?_, h.layout.data_marked hnd ⟨h1, h2⟩⟩⟩
      rintro rfl
      exact h.layout.inode_data hnd hnd ⟨h1, h2⟩
  · refine inodeClose_run hn ?_
    cases hr : n.removed
    · exact .inl rfl
    · exact .inr fun h1 => hlast ⟨hr, h1⟩

theorem Layout.without {size : ℕ} (h : Layout size b.bits nodes) (hk : nodes k = some nd) :
    (∀ {k' n'}, update nodes k none k' = some n' → (b.without k nd.data).bits k' = true) ∧
    ∀ {k' n' x}, update nodes k none k' = some n' → n'.Has x → (b.without k nd.data).bits x = true := by
  have hold : ∀ {k' n'}, update nodes k none k' = some n' → k' ≠ k ∧ nodes k' = some n' := by
    intro k' n' hn'
    rw [update_apply] at hn'
    split_ifs at hn' with hk'
    exact ⟨hk', hn'⟩
  have hout : ∀ {x}, x ≠ k → ¬ nd.Has x → b.bits x = true → (b.without k nd.data).bits x = true := by
    intro x h1 h2 h3
    unfold Node.Has at h2
    change (if nd.start ≤ x ∧ x < nd.start + nd.sectors then false
      else if k ≤ x ∧ x < k + 1 then false else b.bits x) = true
    rw [if_neg h2, if_neg (by omega), h3]
  constructor
  · intro k' n' hn'
    obtain ⟨hne, hn'⟩ := hold hn'
    exact hout hne (h.inode_data hn' hk) (h.inode_marked hn')
  · intro k' n' x hn' hx
    obtain ⟨hne, hold'⟩ := hold hn'
    refine hout ?_ (fun hx' => hne (h.data_data hold' hk hx hx')) (h.data_marked hold' hx)
    rintro rfl
    exact h.inode_data hk hold' hx

/-- **Closing** keeps the invariant; the node of a removed inode is gone with its last reference. -/
theorem Inv.closed (h : Inv s nodes (i :: refs)) (hmap : nodes 0 = some map) (hn : s.inodes.get i = some n) :
    ∃ nodes', Inv (s.closed map.data i n) nodes' refs ∧ nodes' 1 = nodes 1 ∧
      ∀ k m, k ≠ 0 → nodes' k = some m → nodes k = some m := by
  unfold Fs.closed
  split_ifs with hlast
  · have hc := h.closeInode hn
    obtain ⟨nd, hnd, hdata⟩ := h.node hn
    have hkept : ¬ Kept nodes n.sector := (h.opened.inode hn).removed_iff.1 hlast.1
    have h0 : n.sector ≠ 0 := fun h0 => hkept (.inl (by omega))
    have h1 : n.sector ≠ 1 := fun h1 => hkept (.inl (by omega))
    -- no other inode in memory has the sector
    have hgone : ∀ {j m}, (s.closeInode i n).inodes.get j = some m → m.sector ≠ n.sector := by
      intro j m hm hsec
      have hmem : (s.closeInode i n).inodes.get j = if j = i then none else s.inodes.get j := by
        unfold Fs.closeInode
        rw [if_pos hlast.2]
        exact get_free_set hn _ j
      rw [hmem] at hm
      split_ifs at hm with hj
      exact hj (h.opened.unique hm hn hsec)
    have he := hc.erase hkept hgone
    have hmap' : update nodes n.sector none 0 = some map := (update_of_ne h0.symm ..).trans hmap
    have hbits : (s.closeInode i n).freeMap = s.freeMap := by
      obtain ⟨o, h', he⟩ := closeInode_eq s i n
      rw [he]
      rfl
    have hmarks := Layout.without h.layout hnd
    rw [hdata] at hmarks
    have hput := he.putMap hmap' (by rw [hbits]; rfl) hmarks.1 hmarks.2
    refine ⟨_, hput, ?_, fun k m hk hm => ?_⟩
    · rw [update_of_ne (by decide), update_of_ne h1.symm]
    · rw [update_of_ne hk, update_apply] at hm
      split_ifs at hm
      exact hm
  · exact ⟨nodes, h.closeInode hn, rfl, fun _ _ _ hm => hm⟩

theorem OpenInv.closed_frame {data : ℕ → Option InodeDisk} {kept : ℕ → Prop} {d : InodeDisk}
    (h : OpenInv s data kept (i :: refs)) (hn : s.inodes.get i = some n) :
    SameFiles s (s.closed d i n) ∧ ∀ j ∈ refs, (s.closed d i n).sectorAt j = s.sectorAt j := by
  have hsame : SameMem (s.closeInode i n) (s.closed d i n) := by
    unfold Fs.closed
    split_ifs
    · exact ⟨rfl, rfl, rfl⟩
    · exact ⟨rfl, rfl, rfl⟩
  have hfs := h.fileSector_close hn
  have hfiles : SameFiles s (s.closeInode i n) := by
    obtain ⟨o, h', he⟩ := closeInode_eq s i n
    rw [he] at hfs ⊢
    exact ⟨rfl, hfs, rfl⟩
  exact ⟨hfiles.trans hsame.sameFiles, fun j hj => (hsame.sectorAt j).trans (h.sectorAt_close hn (.inl hj))⟩

/-- A reference is closed. -/
structure Closes (s : Fs) (nodes : Nodes) (refs : List ℕ) (t : Fs) (nodes' : Nodes) : Prop where
  inv : Inv t nodes' refs
  same : SameFiles s t
  refs : ∀ j ∈ refs, t.sectorAt j = s.sectorAt j
  root : nodes' 1 = nodes 1
  subset : ∀ k m, k ≠ 0 → nodes' k = some m → nodes k = some m

theorem Inv.closeRef (h : Inv s nodes (i :: refs)) :
    ∃ t nodes', (inodeClose (some i)).run s = .ok ((), t) ∧ Closes s nodes refs t nodes' := by
  obtain ⟨n, hn⟩ := h.opened.ref_inode mem_cons_self
  obtain ⟨map, hmap, -⟩ := h.mapNode
  obtain ⟨nodes', h', hone, hsub⟩ := h.closed hmap hn
  obtain ⟨hsame, hrefs⟩ := h.opened.closed_frame hn
  exact ⟨_, nodes', h.closed_run hmap hn, h', hsame, hrefs, hone, hsub⟩

theorem Inv.perm {refs' : List ℕ} (h : Inv s nodes refs) (hp : refs.Perm refs') : Inv s nodes refs' :=
  ⟨h.memory, h.size_le, h.bitCnt_eq, h.stored, h.layout, h.opened.perm hp, h.mapFile, h.mapNode, h.root⟩

/-! ## Allocating and creating -/

theorem Bitmap.fill_true {start : ℕ} (h : b.bits x = true ∨ start ≤ x ∧ x < start + cnt) :
    (b.fill start cnt true).bits x = true := by
  unfold Bitmap.fill
  dsimp only
  split_ifs with hx
  · rfl
  · exact h.resolve_right hx

/-- **Allocated sectors** are marked and belong to no node. -/
theorem Inv.allocate (h : Inv s nodes refs) (cnt : ℕ) :
    (∃ k t nodes', (freeMapAllocate cnt).run s = .ok (some k, t) ∧ Inv t nodes' refs ∧ SameMem s t ∧
      t.size = s.size ∧ k + cnt ≤ s.size ∧
      (∀ x, k ≤ x → x < k + cnt →
        s.freeMap.bits x = false ∧ t.freeMap.bits x = true ∧ Unowned nodes' x ∧ Unowned nodes x) ∧
      ∀ j ≠ 0, nodes' j = nodes j) ∨
    (freeMapAllocate cnt).run s = .ok (none, s) := by
  obtain ⟨map, hmap, hcontent⟩ := h.mapNode
  obtain ⟨f, hf, hmf⟩ := h.mapFile_ok hmap
  have hsize := h.size_le
  have hcnt := h.bitCnt_eq
  rcases freeMapAllocate_run cnt h.memory (by omega) hf hmf with ⟨k, hrun, hle, hfree, -⟩ | ⟨hrun, -⟩
  · refine .inl ⟨k, _, _, hrun, h.putMap hmap rfl (fun hn => ?_) (fun hn hx => ?_), ⟨rfl, rfl, rfl⟩, rfl,
      by omega, fun x h1 h2 => ?_, fun j hj => update_of_ne hj ..⟩
    · exact Bitmap.fill_true (.inl (h.layout.inode_marked hn))
    · exact Bitmap.fill_true (.inl (h.layout.data_marked hn hx))
    · have hx : s.freeMap.bits x = false := by
        have := hfree (x - k) (by omega)
        rwa [Nat.add_sub_cancel' h1] at this
      have hun : Unowned nodes x := fun k n hn => h.not_owned hx hn
      refine ⟨hx, Bitmap.fill_true (.inr ⟨h1, h2⟩), hun.putMap hmap ?_, hun⟩
      rw [hcontent.1, Bitmap.length_toBytes]
      rfl
  · exact .inr hrun

section

variable (h : Inv s nodes refs) (hk : k < s.size) (hmark : s.freeMap.bits k = true) (hun : Unowned nodes k)
include h hk hmark hun

/-- **A new inode** in a sector that was allocated for it. -/
theorem Inv.createNode {len : ℕ} (hlen : len < 2 ^ 31) :
    (∃ t nodes' start, (inodeCreate k len).run s = .ok (true, t) ∧ Inv t nodes' refs ∧ SameMem s t ∧
      t.size = s.size ∧ t.freeMap.bits k = true ∧ nodes' k = some ⟨start, List.replicate len 0⟩ ∧
      ∀ j, j ≠ 0 → j ≠ k → nodes' j = nodes j) ∨
    (inodeCreate k len).run s = .ok (false, s) := by
  obtain ⟨map, hmap, hcontent⟩ := h.mapNode
  obtain ⟨f, hf, hmf⟩ := h.mapFile_ok hmap
  rcases inodeCreate_run h.memory h.bitCnt_eq h.size_le hk hf hmf hlen with
    ⟨start, hrun, hle, hfree, hbig⟩ | ⟨hrun, -⟩
  · have hput := h.putMap (b := s.freeMap.fill start (sectorsOf len) true) hmap rfl
      (fun hn => Bitmap.fill_true (.inl (h.layout.inode_marked hn)))
      (fun hn hx => Bitmap.fill_true (.inl (h.layout.data_marked hn hx)))
    have hbytes : (s.freeMap.fill start (sectorsOf len) true).toBytes.length = map.content.length := by
      rw [hcontent.1, Bitmap.length_toBytes]
      rfl
    have hzero : ∀ {x}, start ≤ x → x < start + sectorsOf len → s.freeMap.bits x = false := by
      intro x h1 h2
      have := hfree (x - start) (by omega)
      rwa [Nat.add_sub_cancel' h1] at this
    refine .inl ⟨_, _, start, hrun, hput.insert hbig hk hle (Bitmap.fill_true (.inl hmark))
      (fun x h1 h2 => Bitmap.fill_true (.inr ⟨h1, h2⟩)) (fun hn => hun.putMap hmap hbytes _ _ hn) ?_ ?_,
      ⟨rfl, rfl, rfl⟩, rfl, Bitmap.fill_true (.inl hmark), update_self .., fun j h0 hjk => ?_⟩
    · intro k' n' x hn h1 h2
      have hx : Unowned nodes x := fun k n hn => h.not_owned (hzero h1 h2) hn
      exact hx.putMap hmap hbytes _ _ hn
    · rintro ⟨h1, h2⟩
      rw [hzero h1 h2] at hmark
      cases hmark
    · rw [update_of_ne hjk, update_of_ne h0]
  · exact .inr hrun

theorem Inv.release :
    ∃ t nodes', (freeMapRelease k 1).run s = .ok ((), t) ∧ Inv t nodes' refs ∧ SameMem s t ∧
      ∀ j ≠ 0, nodes' j = nodes j := by
  obtain ⟨map, hmap, hcontent⟩ := h.mapNode
  obtain ⟨f, hf, hmf⟩ := h.mapFile_ok hmap
  have hsize := h.size_le
  have hcnt := h.bitCnt_eq
  have hout : ∀ {x}, x ≠ k → s.freeMap.bits x = true → (s.freeMap.fill k 1 false).bits x = true := by
    intro x hx hbit
    change (if k ≤ x ∧ x < k + 1 then false else s.freeMap.bits x) = true
    rw [if_neg (by omega), hbit]
  refine ⟨_, _, freeMapRelease_run h.memory (by omega) hf hmf (by omega) (fun j hj => ?_),
    h.putMap hmap rfl (fun hn => hout (hun _ _ hn).1 (h.layout.inode_marked hn)) (fun hn hx => hout ?_
      (h.layout.data_marked hn hx)), ⟨rfl, rfl, rfl⟩, fun j hj => update_of_ne hj ..⟩
  · obtain rfl : j = 0 := by omega
    exact hmark
  · rintro rfl
    exact (hun _ _ hn).2 hx

end

theorem Layout.unowned {size : ℕ} {bits : ℕ → Bool} (h : Layout size bits nodes) (hk : nodes k = some nd) :
    Unowned (update nodes k none) k := by
  intro k' n' hn'
  rw [update_apply] at hn'
  split_ifs at hn' with hne
  exact ⟨hne, h.inode_data hk hn'⟩

/-! ## The root directory -/

/-- The name is bound to the inode in the sector `k`. -/
def Bound (nodes : Nodes) (name : Name) (k : ℕ) : Prop :=
  ∃ root, nodes 1 = some root ∧
    ∃ j < 16, (entryAt root.content j).hasName name = true ∧ (entryAt root.content j).inodeSector = k

theorem bound_congr (h : nodes' 1 = nodes 1) (name : Name) (k : ℕ) : Bound nodes' name k ↔ Bound nodes name k := by
  unfold Bound
  rw [h]

theorem bound_iff (h : nodes 1 = some nd) (name : Name) (k : ℕ) :
    Bound nodes name k ↔
      ∃ j < 16, (entryAt nd.content j).hasName name = true ∧ (entryAt nd.content j).inodeSector = k := by
  unfold Bound
  rw [h]
  constructor
  · rintro ⟨root, hroot, hj⟩
    rwa [Option.some.inj hroot]
  · exact fun hj => ⟨nd, rfl, hj⟩

theorem kept_iff (h : nodes 1 = some nd) (k : ℕ) : Kept nodes k ↔ k < 2 ∨ Names nd.content k := by
  unfold Kept
  rw [h]
  refine or_congr Iff.rfl ⟨?_, fun hk => ⟨nd, rfl, hk⟩⟩
  rintro ⟨root, hroot, hk⟩
  rwa [Option.some.inj hroot]

theorem Inv.bound_kept (hk : Bound nodes name k) : Kept nodes k := by
  obtain ⟨root, hroot, j, hj, hname, rfl⟩ := hk
  exact .inr ⟨root, hroot, j, hj, (hasName_iff.1 hname).1, rfl⟩

theorem Inv.rootContent (h : Inv s nodes refs) (hi : s.sectorAt i = some 1) (hroot : nodes 1 = some nd) :
    ∃ n, Content s i n nd.content ∧ n.data.start = nd.start ∧ n.denyWriteCnt = 0 := by
  obtain ⟨n, hn, hsec⟩ := Option.map_eq_some_iff.1 hi
  obtain ⟨nd', hnd', hdata⟩ := h.node hn
  have hk : nodes n.sector = some nd := by rw [hsec, hroot]
  cases hk.symm.trans hnd'
  exact ⟨n, h.content hn hk, by rw [← hdata]; rfl, (h.opened.inode hn).allowed (by omega)⟩

section
variable {c : List UInt8} {j : ℕ}

theorem length_name_entryAt (hc : c.length = 20 * 16) (hj : j < 16) : (entryAt c j).name.length = 15 :=
  length_name_ofBytes (length_entry hc.ge hj)

theorem DirOk.add (h : DirOk c nodes) (hj : j < 16) (hlen : name.val.length ≤ 14)
    (hno : ∀ l < 16, (entryAt c l).hasName name = false) (hk2 : 2 ≤ k) (hk32 : k < 2 ^ 32) (hnew : ¬ Names c k) (hnode : ∃ n, nodes' k = some n)
    (hold : ∀ l, (∃ n, nodes l = some n) → ∃ n, nodes' l = some n) :
    DirOk (overwrite c (20 * j) ((entryAt c j).renew name k).toBytes) nodes' := by
  have hname : ((entryAt c j).renew name k).name.length = 15 :=
    length_strlcpy hlen (length_name_entryAt h.length_eq hj)
  have hat := entryAt_put h.length_eq.ge hj hname hk32
  have hcstr : cstr ((entryAt c j).renew name k).name = name.val := cstr_strlcpy hlen
  have hother : ∀ {l}, l < 16 → (entryAt c l).inUse = true → cstr (entryAt c l).name ≠ name.val := by
    intro l hl huse hc
    have := hno l hl
    rw [hasName_iff.2 ⟨huse, hc⟩] at this
    cases this
  refine ⟨?_, ?_, ?_, ?_, ?_⟩
  · rw [length_overwrite, h.length_eq]
    rw [DirEntry.length_toBytes hname, h.length_eq]
    omega
  · intro l hl
    rw [hat]
    split_ifs
    · rw [hcstr]
      exact fun _ => hlen
    · exact h.name_le hl
  · intro l hl
    rw [hat]
    split_ifs
    · exact fun _ => ⟨hk2, hnode⟩
    · exact fun huse => ⟨(h.node hl huse).1, hold _ (h.node hl huse).2⟩
  · intro l m hl hm
    rw [hat, hat]
    split_ifs with h1 h2 h2
    · exact fun _ _ _ => h1.trans h2.symm
    · rw [hcstr]
      exact fun _ huse hc => absurd hc.symm (hother hm huse)
    · rw [hcstr]
      exact fun huse _ hc => absurd hc (hother hl huse)
    · exact h.name_inj hl hm
  · intro l m hl hm
    rw [hat, hat]
    split_ifs with h1 h2 h2
    · exact fun _ _ _ => h1.trans h2.symm
    · exact fun _ huse hs => absurd ⟨m, hm, huse, hs.symm⟩ hnew
    · exact fun huse _ hs => absurd ⟨l, hl, huse, hs⟩ hnew
    · exact h.sector_inj hl hm

theorem DirOk.subset {c' : List UInt8} (h : DirOk c nodes) (hlen : c'.length = 20 * 16)
    (hsame : ∀ l, (entryAt c' l).inUse = true → entryAt c' l = entryAt c l)
    (hold : ∀ l, (∃ n, nodes l = some n) → ∃ n, nodes' l = some n) : DirOk c' nodes' := by
  have huse : ∀ {l}, (entryAt c' l).inUse = true → (entryAt c l).inUse = true :=
    fun hl => by rwa [← hsame _ hl]
  refine ⟨hlen, ?_, ?_, ?_, ?_⟩
  · intro l hl hul
    rw [hsame l hul]
    exact h.name_le hl (huse hul)
  · intro l hl hul
    rw [hsame l hul]
    exact ⟨(h.node hl (huse hul)).1, hold _ (h.node hl (huse hul)).2⟩
  · intro l m hl hm hul hum
    rw [hsame l hul, hsame m hum]
    exact h.name_inj hl hm (huse hul) (huse hum)
  · intro l m hl hm hul hum
    rw [hsame l hul, hsame m hum]
    exact h.sector_inj hl hm (huse hul) (huse hum)

end

/-- **`dir_add`** binds a name that was not bound. -/
theorem Inv.addEntry (h : Inv s nodes refs) (hi : s.sectorAt i = some 1) (hk : nodes k = some nd)
    (hkept : ¬ Kept nodes k) (hclosed : ∀ {j m}, s.inodes.get j = some m → m.sector ≠ k) (name : Name) :
    (∃ t nodes', (dirAdd ⟨i⟩ name k).run s = .ok (true, t) ∧ Inv t nodes' refs ∧ SameMem s t ∧
      name.val ≠ [] ∧ name.val.length ≤ 14 ∧ (∀ k', ¬ Bound nodes name k') ∧
      (∀ name' k', Bound nodes' name' k' ↔ Bound nodes name' k' ∨ name' = name ∧ k' = k) ∧
      ∀ j ≠ 1, nodes' j = nodes j) ∨
    (dirAdd ⟨i⟩ name k).run s = .ok (false, s) := by
  obtain ⟨root, hroot, hdir⟩ := h.root
  obtain ⟨n, hcontent, hstart, hallowed⟩ := h.rootContent hi hroot
  rcases dirAdd_run ⟨i⟩ h.memory hcontent hallowed hdir.length_eq name k with
    ⟨j, hj, hfree, hne, hlen, hno, hrun⟩ | ⟨-, hrun⟩
  · rw [kept_iff hroot, not_or, Nat.not_lt] at hkept
    obtain ⟨hk2, hnew⟩ := hkept
    have hsize := h.size_le
    have hk32 : k < 2 ^ 32 := by have := h.layout.inode_lt hk; omega
    have hname : ((entryAt root.content j).renew name k).name.length = 15 :=
      length_strlcpy hlen (length_name_entryAt hdir.length_eq hj)
    have hat := entryAt_put hdir.length_eq.ge hj hname hk32
    have hle : 20 * j + ((entryAt root.content j).renew name k).toBytes.length ≤ root.content.length := by
      rw [DirEntry.length_toBytes hname, hdir.length_eq]
      omega
    set c' := overwrite root.content (20 * j) ((entryAt root.content j).renew name k).toBytes with hc'
    have hlen' : c'.length = root.content.length := length_overwrite hle
    set nodes' := update nodes 1 (some (⟨root.start, c'⟩ : Node)) with hnodes'
    have hroot' : nodes' 1 = some ⟨root.start, c'⟩ := update_self ..
    have hother : ∀ l ≠ 1, nodes' l = nodes l := fun l hl => update_of_ne hl ..
    have hsome : ∀ l, (∃ n, nodes l = some n) → ∃ n, nodes' l = some n := by
      rintro l ⟨n, hn⟩
      rcases eq_or_ne l 1 with rfl | hl
      · exact ⟨_, hroot'⟩
      · exact ⟨n, (hother l hl).trans hn⟩
    refine .inl ⟨_, nodes', hrun, ⟨h.memory, h.size_le, h.bitCnt_eq, ?_, h.layout.write hroot hlen', ?_,
      h.mapFile, ?_, ⟨_, hroot', ?_⟩⟩, ⟨rfl, rfl, rfl⟩, hne, hlen, ?_, ?_, hother⟩
    · rw [hstart]
      exact h.stored.write h.layout hroot hle
    · refine h.opened.congr rfl rfl rfl (fun _ => Nodes.data_write hroot hlen' _) fun {l m} hm => ?_
      rw [kept_iff hroot', kept_iff hroot]
      refine or_congr Iff.rfl ⟨?_, ?_⟩
      · rintro ⟨l', hl', huse, hsec⟩
        rw [hat] at huse hsec
        split_ifs at huse hsec
        · exact absurd hsec.symm (hclosed hm)
        · exact ⟨l', hl', huse, hsec⟩
      · rintro ⟨l', hl', huse, hsec⟩
        refine ⟨l', hl', ?_⟩
        rw [hat, if_neg]
        · exact ⟨huse, hsec⟩
        · rintro rfl
          rw [hfree] at huse
          cases huse
    · rw [hother 0 (by decide)]
      exact h.mapNode
    · exact hdir.add hj hlen hno hk2 hk32 hnew (hsome k ⟨nd, hk⟩) hsome
    · intro k' hb
      obtain ⟨l, hl, hnm, -⟩ := (bound_iff hroot name k').1 hb
      rw [hno l hl] at hnm
      cases hnm
    · intro name' k'
      rw [bound_iff hroot', bound_iff hroot]
      constructor
      · rintro ⟨l, hl, hnm, hsec⟩
        rw [hat] at hnm hsec
        split_ifs at hnm hsec
        · refine .inr ⟨Subtype.ext ?_, hsec.symm⟩
          rw [← (hasName_iff.1 hnm).2]
          exact cstr_strlcpy hlen
        · exact .inl ⟨l, hl, hnm, hsec⟩
      · rintro (⟨l, hl, hnm, hsec⟩ | ⟨rfl, rfl⟩)
        · refine ⟨l, hl, ?_⟩
          rw [hat, if_neg]
          · exact ⟨hnm, hsec⟩
          · rintro rfl
            rw [(hasName_iff.1 hnm).1] at hfree
            cases hfree
        · refine ⟨j, hj, ?_⟩
          rw [hat, if_pos rfl]
          exact ⟨hasName_iff.2 ⟨rfl, cstr_strlcpy hlen⟩, rfl⟩
  · exact .inr hrun

theorem names_drop {c c' : List UInt8} {j : ℕ} (hdir : DirOk c nodes) (hj : j < 16)
    (huse : (entryAt c j).inUse = true)
    (hat : ∀ l, entryAt c' l = if l = j then (entryAt c j).unused else entryAt c l) :
    Names c' x ↔ Names c x ∧ x ≠ (entryAt c j).inodeSector := by
  constructor
  · rintro ⟨l, hl, hul, hsec⟩
    rw [hat] at hul hsec
    split_ifs at hul hsec with hlj
    · exact absurd hul Bool.false_ne_true
    · refine ⟨⟨l, hl, hul, hsec⟩, fun hx => hlj ?_⟩
      exact hdir.sector_inj hl hj hul huse (hsec.trans hx)
  · rintro ⟨⟨l, hl, hul, hsec⟩, hx⟩
    refine ⟨l, hl, ?_⟩
    rw [hat, if_neg]
    · exact ⟨hul, hsec⟩
    · rintro rfl
      exact hx hsec.symm

theorem Inv.eraseEntry {j r : ℕ} (h : Inv s nodes refs) (hroot : nodes 1 = some nd) (hj : j < 16)
    (huse : (entryAt nd.content j).inUse = true) (hr : s.inodes.get r = some n)
    (hsec : n.sector = (entryAt nd.content j).inodeSector) :
    ∃ nodes', Inv ((s.withDisk (store s.disk (512 * nd.start + 20 * j)
        (entryAt nd.content j).unused.toBytes)).withInodes s.openInodes
          (s.inodes.set r { n with removed := true })) nodes' refs ∧
      (∀ l ≠ 1, nodes' l = nodes l) ∧ ∃ c', nodes' 1 = some ⟨nd.start, c'⟩ ∧
        ∀ l, entryAt c' l = if l = j then (entryAt nd.content j).unused else entryAt nd.content l := by
  obtain ⟨root, hroot', hdir⟩ := h.root
  cases hroot.symm.trans hroot'
  have hname : (entryAt nd.content j).unused.name.length = 15 :=
    length_name_entryAt hdir.length_eq hj
  have hat := entryAt_put hdir.length_eq.ge hj hname (toWord_lt _)
  have hle : 20 * j + (entryAt nd.content j).unused.toBytes.length ≤ nd.content.length := by
    rw [DirEntry.length_toBytes hname, hdir.length_eq]
    omega
  have hlen := length_overwrite hle
  have hstored := h.stored.write h.layout hroot hle
  generalize overwrite nd.content (20 * j) (entryAt nd.content j).unused.toBytes = c' at *
  have hk2 : 2 ≤ (entryAt nd.content j).inodeSector := (hdir.node hj huse).1
  have hnew : update nodes 1 (some (⟨nd.start, c'⟩ : Node)) 1 = some ⟨nd.start, c'⟩ :=
    update_self ..
  have hother : ∀ l ≠ 1, update nodes 1 (some (⟨nd.start, c'⟩ : Node)) l = nodes l :=
    fun l hl => update_of_ne hl ..
  have hkept : ∀ x, Kept (update nodes 1 (some (⟨nd.start, c'⟩ : Node))) x ↔
      Kept nodes x ∧ x ≠ (entryAt nd.content j).inodeSector := by
    intro x
    rw [kept_iff hnew, kept_iff hroot, names_drop hdir hj huse hat]
    constructor
    · rintro (hx | ⟨hx, hne⟩)
      · exact ⟨.inl hx, by omega⟩
      · exact ⟨.inr hx, hne⟩
    · rintro ⟨hx | hx, hne⟩
      · exact .inl hx
      · exact .inr ⟨hx, hne⟩
  refine ⟨_, ⟨h.memory, h.size_le, h.bitCnt_eq, hstored, h.layout.write hroot hlen, ?_, ?_, ?_, ⟨_, hnew, ?_⟩⟩, hother,
    c', hnew, hat⟩
  · have hok := h.opened.inode hr
    have hset : OpenInv (s.withInodes s.openInodes (s.inodes.set r { n with removed := true })) nodes.data
        (Kept (update nodes 1 (some (⟨nd.start, c'⟩ : Node)))) refs := by
      refine h.opened.set hr (h.opened.toCounted.remove hr) ⟨hok.data_eq, ?_, hok.allowed⟩ ?_
      · change true = true ↔ _
        rw [hkept]
        exact ⟨fun _ hk => hk.2 hsec, fun _ => rfl⟩
      · intro l m hl hm
        rw [hkept]
        refine ⟨fun hk => hk.1, fun hk => ⟨hk, fun hms => hl ?_⟩⟩
        exact h.opened.unique hm hr (hms.trans hsec.symm)
    exact hset.congr rfl rfl rfl (fun _ => Nodes.data_write hroot hlen _) (fun _ => Iff.rfl)
  · obtain ⟨f, hf, h0⟩ := h.mapFile
    refine ⟨f, hf, ?_⟩
    rw [← h0]
    exact congrFun (fileSector_set s.openInodes { n with removed := true } hr rfl) f
  · rw [hother 0 (by decide)]
    exact h.mapNode
  · refine hdir.subset (hlen.trans hdir.length_eq) (fun l hul => ?_) ?_
    · rw [hat] at hul ⊢
      split_ifs at hul ⊢
      · exact absurd hul Bool.false_ne_true
      · rfl
    · rintro l ⟨n, hn⟩
      rcases eq_or_ne l 1 with rfl | hl
      · exact ⟨_, hnew⟩
      · exact ⟨n, (hother l hl).trans hn⟩

/-- **`dir_remove`** unbinds a name that was bound. -/
theorem Inv.removeEntry (h : Inv s nodes (i :: refs)) (hi : s.sectorAt i = some 1) (name : Name) :
    (∃ t nodes', (dirRemove ⟨i⟩ name).run s = .ok (true, t) ∧ Inv t nodes' (i :: refs) ∧ SameFiles s t ∧
      t.sectorAt i = some 1 ∧ (∃ k, Bound nodes name k) ∧
      (∀ name' k', Bound nodes' name' k' ↔ Bound nodes name' k' ∧ name' ≠ name) ∧
      ∀ k m, 2 ≤ k → nodes' k = some m → nodes k = some m) ∨
    ((∀ k, ¬ Bound nodes name k) ∧ (dirRemove ⟨i⟩ name).run s = .ok (false, s)) := by
  obtain ⟨root, hroot, hdir⟩ := h.root
  obtain ⟨n0, hcontent0, -⟩ := h.rootContent hi hroot
  unfold dirRemove
  rcases lookup_run ⟨i⟩ h.memory hcontent0 hdir.slots_eq name with ⟨j, hj, hnm, hrun⟩ | ⟨hno, hrun⟩
  · rw [run_bind_ok hrun]
    obtain ⟨huse, hcstr⟩ := hasName_iff.1 hnm
    have hbound : Bound nodes name (entryAt root.content j).inodeSector :=
      (bound_iff hroot _ _).2 ⟨j, hj, hnm, rfl⟩
    -- open the inode
    obtain ⟨r, s1, hopen, h₁⟩ := h.openInode (Inv.bound_kept hbound)
    have hi1 : s1.sectorAt i = some 1 := (h₁.refs i mem_cons_self).trans hi
    obtain ⟨n1, hcontent1, hstart, hallowed⟩ := h₁.inv.rootContent hi1 hroot
    obtain ⟨n, hn, hsec⟩ := Option.map_eq_some_iff.1 h₁.sectorAt
    -- erase the entry and remove the inode
    have hwrite := writeEntry_run (e := (entryAt root.content j).unused) h₁.inv.memory hcontent1
      hallowed hdir.length_eq.ge hj (length_name_entryAt hdir.length_eq hj)
    rw [hstart] at hwrite
    obtain ⟨nodes2, h₂, hother, c', hroot2, hat⟩ := h₁.inv.eraseEntry hroot hj huse hn hsec
    set s2 := (s1.withDisk (store s1.disk (512 * root.start + 20 * j)
        (entryAt root.content j).unused.toBytes)).withInodes s1.openInodes
          (s1.inodes.set r { n with removed := true }) with hs2
    have hget : s2.inodes.get r = some { n with removed := true } := by
      change (s1.inodes.set r _).get r = _
      rw [Heap.get_set hn, if_pos rfl]
    have hsame2 : SameFiles s1 s2 := by
      refine ⟨rfl, ?_, rfl⟩
      exact fileSector_set s1.openInodes { n with removed := true } hn rfl
    have hi2 : s2.sectorAt i = some 1 := by
      rw [← hi1]
      unfold Fs.sectorAt
      change ((s1.inodes.set r { n with removed := true }).get i).map _ = _
      rw [Heap.get_set hn]
      split_ifs with hir
      · rw [hir, hn]; rfl
      · rfl
    -- close it again
    obtain ⟨map, hmap, -⟩ := h₂.mapNode
    obtain ⟨nodes3, h₃, hone, hsub⟩ := h₂.closed hmap hget
    obtain ⟨hsame3, hrefs3⟩ := h₂.opened.closed_frame hget
    refine .inl ⟨_, nodes3, ?_, h₃, (h₁.same.trans hsame2).trans hsame3, ?_, ⟨_, hbound⟩, ?_, ?_⟩
    · dsimp only
      rw [run_bind_ok hopen]
      rw [run_bind_ok hwrite, if_pos rfl]
      rw [run_bind_ok (inodeRemove_run (s := s1.withDisk (store s1.disk (512 * root.start + 20 * j)
          (entryAt root.content j).unused.toBytes)) hn)]
      change StateT.run _ s2 = _
      rw [run_bind_ok (h₂.closed_run hmap hget)]
      rfl
    · rw [hrefs3 i mem_cons_self, hi2]
    · intro name' k'
      rw [bound_congr hone, bound_iff hroot2, bound_iff hroot]
      constructor
      · rintro ⟨l, hl, hnm', hk'⟩
        rw [hat] at hnm' hk'
        split_ifs at hnm' hk' with hlj
        · exact absurd (hasName_iff.1 hnm').1 Bool.false_ne_true
        · refine ⟨⟨l, hl, hnm', hk'⟩, ?_⟩
          rintro rfl
          obtain ⟨huse', hcstr'⟩ := hasName_iff.1 hnm'
          exact hlj (hdir.name_inj hl hj huse' huse (hcstr'.trans hcstr.symm))
      · rintro ⟨⟨l, hl, hnm', hk'⟩, hne⟩
        refine ⟨l, hl, ?_⟩
        rw [hat, if_neg]
        · exact ⟨hnm', hk'⟩
        · rintro rfl
          exact hne (Subtype.ext ((hasName_iff.1 hnm').2.symm.trans hcstr))
    · intro k m hk2 hk
      rw [← hother k (by omega)]
      exact hsub k m (by omega) hk
  · refine .inr ⟨fun k hk => ?_, ?_⟩
    · obtain ⟨l, hl, hnm, -⟩ := (bound_iff hroot name k).1 hk
      rw [hno l hl] at hnm
      cases hnm
    · rw [run_bind_ok hrun]
      rfl

end Pintos
