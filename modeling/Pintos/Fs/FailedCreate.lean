/-
  `filesys_create` that fails (filesys/filesys.c, filesys/inode.c, filesys/directory.c).

  The call takes a sector for the inode, then the sectors for the data, and then adds the name to the root
  directory.
-/
import Pintos.Fs.Extents

namespace Pintos

open Lib Prog List

variable {s s1 s2 t : Fs} {nodes nodes' : Nodes} {i k start cnt : ℕ} {n : Inode} {map : Node} {name : Name}

/-- The free map in its file. -/
def Fs.storedMap (s : Fs) : Bitmap := .ofBytes s.freeMap.bitCnt (s.fileBytes 0)

/-- The free map, in memory and in its file, the root directory and the open inodes are the same. -/
structure Untouched (s t : Fs) : Prop where
  freeMap : t.freeMap = s.freeMap
  stored : ∀ x < s.size, t.storedMap.bits x = s.storedMap.bits x
  rootDir : t.rootDir = s.rootDir
  openInodes : t.openInodes = s.openInodes
  inodes : ∀ j, t.inodes.get j = s.inodes.get j

/-- A call that returns false changes nothing. -/
def Fs.FailsUntouched (s : Fs) (name : Name) (size : ℤ) : Prop :=
  ∀ t, (filesysCreate name size).run s = .ok (false, t) → Untouched s t

/-- The first free sector, which a new inode gets. -/
def Fs.FirstFree (s : Fs) (k : ℕ) : Prop := k < s.size ∧ s.freeMap.bits k = false ∧ ∀ x < k, s.freeMap.bits x = true

/-- From `start` on there are `cnt` free sectors that do not include `k`. -/
def Fs.FreeBeside (s : Fs) (k start cnt : ℕ) : Prop :=
  start + cnt ≤ s.size ∧ ∀ x, start ≤ x → x < start + cnt → x ≠ k ∧ s.freeMap.bits x = false

/-- There is a free sector, and beside the first one there is a run of as many free sectors as the
    data needs. -/
def Fs.HasRoom (s : Fs) (size : ℤ) : Prop :=
  ∃ k start, s.FirstFree k ∧ s.FreeBeside k start (bytesToSectors size)

theorem Fs.FirstFree.unique {k' : ℕ} (h : s.FirstFree k) (h' : s.FirstFree k') : k = k' := by
  obtain ⟨-, hfree, hfirst⟩ := h
  obtain ⟨-, hfree', hfirst'⟩ := h'
  rcases Nat.lt_trichotomy k k' with hlt | heq | hlt
  · rw [hfirst' k hlt] at hfree
    cases hfree
  · exact heq
  · rw [hfirst k' hlt] at hfree'
    cases hfree'

/-! ## The root directory is opened and closed -/

/-- Closing the reference `i` gives the open inodes of `s`. -/
structure Undoes (s s1 : Fs) (i : ℕ) (n : Inode) : Prop where
  get : s1.inodes.get i = some n
  openInodes : (s1.closeInode i n).openInodes = s.openInodes
  inodes : ∀ j, (s1.closeInode i n).inodes.get j = s.inodes.get j

theorem Undoes.reopen (hn : s.inodes.get i = some n) (hpos : n.openCnt ≠ 0) :
    Undoes s (s.withInodes s.openInodes (s.inodes.set i { n with openCnt := n.openCnt + 1 })) i
      { n with openCnt := n.openCnt + 1 } := by
  have hget : (s.inodes.set i { n with openCnt := n.openCnt + 1 }).get i = some { n with openCnt := n.openCnt + 1 } := by
    rw [Heap.get_set hn, if_pos rfl]
  have hlast : ({ n with openCnt := n.openCnt + 1 } : Inode).openCnt ≠ 1 := by
    dsimp only
    omega
  refine ⟨hget, ?_, fun j => ?_⟩
  · rw [Fs.closeInode, if_neg hlast]
    rfl
  · rw [Fs.closeInode, if_neg hlast]
    change ((s.inodes.set i _).set i _).get j = _
    rw [Heap.get_set hget, Heap.get_set hn]
    split_ifs with hj
    · simp [hj, hn]
    · rfl

theorem Undoes.alloc (hcnt : n.openCnt = 1) :
    Undoes s (s.withInodes (s.inodes.next :: s.openInodes) (s.inodes.alloc n)) s.inodes.next n := by
  refine ⟨Heap.get_alloc_self, ?_, fun j => ?_⟩
  · rw [Fs.closeInode, if_pos hcnt]
    exact erase_cons_head ..
  · rw [Fs.closeInode, if_pos hcnt]
    change (((s.inodes.alloc n).set _ _).free _).get j = _
    rw [Heap.get_free, Heap.get_set Heap.get_alloc_self]
    split_ifs with hj
    · rw [hj, s.inodes.get_next _ le_rfl]
    · rw [Heap.get_alloc_of_ne hj]

/-- Opening an inode is undone by closing it; nothing but the open inodes changes. -/
theorem Inv.openInode_undo (h : Inv s nodes []) (hk : k < s.size) (hrun : (inodeOpen k).run s = .ok (some i, s1)) :
    ∃ n o h', s1 = s.withInodes o h' ∧ Undoes s s1 i n := by
  unfold inodeOpen at hrun
  rw [run_bind_get] at hrun
  rcases openLoop_run k (fun i hi => (h.opened.mem_iff i).1 hi) s.openInodes (List.Subset.refl _) with
    ⟨j, n, hloop, -, hn, -⟩ | ⟨hloop, -⟩
  · rw [run_bind_ok hloop] at hrun
    rw [inodeReopen_run hn] at hrun
    obtain ⟨hi, rfl⟩ := ok_inj hrun
    cases hi
    have hpos := h.opened.openCnt_pos hn
    exact ⟨_, _, _, rfl, .reopen hn (by omega)⟩
  · rw [run_bind_ok hloop] at hrun
    rw [run_bind_ok (malloc_run h.memory), if_pos rfl, run_bind_ok (blockRead_run hk),
      run_bind_get, run_bind_set] at hrun
    obtain ⟨hi, rfl⟩ := ok_inj hrun
    cases hi
    exact ⟨_, _, _, rfl, .alloc rfl⟩

theorem Inv.openRoot_undo (h : Inv s nodes []) :
    ∃ i n o h', dirOpenRoot.run s = .ok (some ⟨i⟩, s.withInodes o h') ∧ Opens s nodes [] 1 i (s.withInodes o h') ∧
      Undoes s (s.withInodes o h') i n ∧ n.removed = false := by
  obtain ⟨root, hroot, -⟩ := h.root
  obtain ⟨i, t, hrun, hopen⟩ := h.openInode (k := 1) (.inl (by decide))
  obtain ⟨n, o, h', rfl, hundo⟩ := h.openInode_undo (h.layout.inode_lt hroot) hrun
  refine ⟨i, n, o, h', ?_, hopen, hundo, ?_⟩
  · unfold dirOpenRoot dirOpen
    rw [run_bind_ok hrun, run_bind_ok (malloc_run hopen.inv.memory)]
    rfl
  · have hsec : n.sector = 1 := by
      have := hopen.sectorAt
      rw [Fs.sectorAt, hundo.get] at this
      exact Option.some.inj this
    have hkept := (hopen.inv.opened.inode hundo.get).removed_iff
    rw [hsec] at hkept
    exact Bool.eq_false_iff.2 fun hrem => hkept.1 hrem (.inl (by decide))

/-- The call ends with the free map `b` and the open inodes as they were. -/
structure Ends (s : Fs) (b : Bitmap) (t : Fs) : Prop where
  freeMap : t.freeMap = b
  openInodes : t.openInodes = s.openInodes
  inodes : ∀ j, t.inodes.get j = s.inodes.get j

theorem Undoes.close (h : Undoes s s1 i n) (hrem : n.removed = false) (hinodes : s2.inodes = s1.inodes)
    (hopen : s2.openInodes = s1.openInodes) :
    ∃ t, (inodeClose (some i)).run s2 = .ok ((), t) ∧ Ends s s2.freeMap t := by
  have hget : s2.inodes.get i = some n := by rw [hinodes, h.get]
  refine ⟨_, inodeClose_run hget (.inl hrem), ?_, ?_, fun j => ?_⟩
  · obtain ⟨o, h', he⟩ := closeInode_eq s2 i n
    rw [he]
    rfl
  · rw [← h.openInodes]
    unfold Fs.closeInode
    rw [← hinodes, ← hopen]
    split_ifs <;> rfl
  · rw [← h.inodes j]
    unfold Fs.closeInode
    rw [← hinodes, ← hopen]
    split_ifs <;> rfl

/-! ## The free map -/

theorem Fs.freeBeside_iff : s.FreeBeside k start cnt ↔
    start + cnt ≤ s.size ∧ ∀ j < cnt, (s.freeMap.fill k 1 true).bits (start + j) = false := by
  have hbits : ∀ x, (s.freeMap.fill k 1 true).bits x = false ↔ x ≠ k ∧ s.freeMap.bits x = false := by
    intro x
    change (if k ≤ x ∧ x < k + 1 then true else s.freeMap.bits x) = false ↔ _
    by_cases hx : x = k
    · simp [hx]
    · rw [if_neg (by omega)]
      simp [hx]
  refine and_congr_right fun _ => ⟨fun h j hj => (hbits _).2 (h _ (by omega) (by omega)), fun h x h1 h2 => ?_⟩
  obtain ⟨j, rfl⟩ := Nat.exists_eq_add_of_le h1
  exact (hbits _).1 (h j (by omega))

theorem Fs.FreeBeside.leaked (h : s.FreeBeside k start cnt) (hcnt : 0 < cnt) :
    (((s.freeMap.fill k 1 true).fill start cnt true).fill k 1 false).bits start = true ∧
      s.freeMap.bits start = false := by
  obtain ⟨hne, hfree⟩ := h.2 start le_rfl (by omega)
  refine ⟨?_, hfree⟩
  change (if k ≤ start ∧ start < k + 1 then false else
    if start ≤ start ∧ start < start + cnt then true else _) = true
  rw [if_neg (by omega), if_pos (by omega)]

/-! ## The call -/

theorem Undoes.noSector (h : Undoes s s1 i n) (hrem : n.removed = false) (hbits : s1.freeMap = s.freeMap)
    (hopen : dirOpenRoot.run s = .ok (some ⟨i⟩, s1)) (halloc : (freeMapAllocate 1).run s1 = .ok (none, s1))
    (name : Name) (size : ℤ) : ∃ t, (filesysCreate name size).run s = .ok (false, t) ∧ Ends s s.freeMap t := by
  obtain ⟨t, hclose, hends⟩ := h.close hrem rfl rfl
  refine ⟨t, ?_, hbits ▸ hends⟩
  unfold filesysCreate
  rw [run_bind_ok hopen]
  rw [run_bind_ok halloc]
  rw [dirClose, run_bind_ok hclose]
  rfl

/-- What the call does once it has a sector for the inode. -/
def afterInode (i : ℕ) (name : Name) (k : ℕ) (size : ℤ) : FsM Bool := do
  let success ← createAndAdd ⟨i⟩ name k size
  releaseFailed success k
  dirClose (some ⟨i⟩)
  pure success

variable {size : ℤ}

theorem Undoes.fail {s3 : Fs} (h : Undoes s s1 i n) (hrem : n.removed = false) (hinodes : s3.inodes = s1.inodes)
    (hopen : s3.openInodes = s1.openInodes) (h3 : Inv s3 nodes [i]) (hk : k ≠ 0) (hlt : k < s3.size)
    (hmark : s3.freeMap.bits k = true) (hadd : (createAndAdd ⟨i⟩ name k size).run s2 = .ok (false, s3)) :
    ∃ t, (afterInode i name k size).run s2 = .ok (false, t) ∧ Ends s (s3.freeMap.fill k 1 false) t := by
  obtain ⟨map, hmap, -⟩ := h3.mapNode
  obtain ⟨file, hfile, hf⟩ := h3.mapFile_ok hmap
  have hcnt := h3.bitCnt_eq
  have hsize := h3.size_le
  have hrelease : (releaseFailed false k).run s3 = .ok ((), s3.putMap map.data (s3.freeMap.fill k 1 false)) := by
    unfold releaseFailed
    rw [if_pos (by simpa using hk)]
    refine freeMapRelease_run h3.memory (by omega) hfile hf (by omega) fun j hj => ?_
    rwa [show k + j = k by omega]
  obtain ⟨t, hclose, hends⟩ := h.close hrem
    (show (s3.putMap map.data (s3.freeMap.fill k 1 false)).inodes = s1.inodes from hinodes) hopen
  refine ⟨t, ?_, hends⟩
  unfold afterInode
  rw [run_bind_ok hadd, run_bind_ok hrelease, dirClose, run_bind_ok hclose]
  rfl

section
variable {nodes2 : Nodes} {len : ℕ}

theorem Inv.createNode_exact (h₂ : Inv s2 nodes2 [i]) (hmap : nodes2 0 = some map) (hlt : k < s2.size)
    (hmark : s2.freeMap.bits k = true) (hun : Unowned nodes2 k) (hk : 2 ≤ k) (hlen : len < 2 ^ 31) :
    (∃ s3 nodes3 start, (inodeCreate k len).run s2 = .ok (true, s3) ∧ Inv s3 nodes3 [i] ∧ nodes3 1 = nodes2 1 ∧
      SameMem s2 s3 ∧ s3.openInodes = s2.openInodes ∧ s3.size = s2.size ∧
      s3.freeMap = s2.freeMap.fill start (bytesToSectors len) true ∧ start + bytesToSectors len ≤ s2.size ∧
      ∀ j < bytesToSectors len, s2.freeMap.bits (start + j) = false) ∨
    ((inodeCreate k len).run s2 = .ok (false, s2) ∧
      ∀ start, start + bytesToSectors len ≤ s2.size → ∃ j < bytesToSectors len, s2.freeMap.bits (start + j) = true) := by
  obtain ⟨file, hfile, hf⟩ := h₂.mapFile_ok hmap
  have hsize := h₂.size_le
  rcases inodeCreate_run h₂.memory h₂.bitCnt_eq h₂.size_le hlt hfile hf hlen with
    ⟨start, hcreate, hle, hfree, hbig⟩ | ⟨hcreate, hno⟩
  · rw [bytesToSectors_eq hbig]
    rcases h₂.createNode hlt hmark hun hlen with ⟨s3, nodes3, _, hcreate', h3, hmem, -, -, -, hother⟩ | hcreate'
    · obtain ⟨-, rfl⟩ := ok_inj (hcreate'.symm.trans hcreate)
      exact .inl ⟨_, nodes3, start, hcreate, h3, hother 1 (by decide) (by omega), hmem, rfl, rfl, rfl, hle, hfree⟩
    · cases hcreate'.symm.trans hcreate
  · refine .inr ⟨hcreate, fun start hle => ?_⟩
    by_cases hbig : len + 511 < 2 ^ 31
    · rw [bytesToSectors_eq hbig] at hle ⊢
      exact hno hbig start hle
    · have := lt_bytesToSectors (show 2 ^ 31 ≤ (len : ℤ) + 511 by omega) (by omega)
      omega

theorem Inv.afterInode_cases (h : Inv s nodes []) (hundo : Undoes s s1 i n) (hrem : n.removed = false)
    (h₂ : Inv s2 nodes2 [i]) (hroot : nodes2 1 = nodes 1) (hmem : SameMem s1 s2) (hopen : s2.openInodes = s1.openInodes)
    (hi : s2.sectorAt i = some 1) (hbits : s2.freeMap = s.freeMap.fill k 1 true) (hsize : s2.size = s.size)
    (hk : s.FirstFree k) (hun : Unowned nodes2 k) (name : Name) (hlen : len < 2 ^ 31) :
    (¬ s.HasRoom len ∧ ∃ t, (afterInode i name k len).run s2 = .ok (false, t) ∧ Ends s s.freeMap t) ∨
    (∃ start, s.FreeBeside k start (bytesToSectors len) ∧ ¬ Addable 16 s.rootDir name ∧
      ∃ t, (afterInode i name k len).run s2 = .ok (false, t) ∧
        Ends s (((s.freeMap.fill k 1 true).fill start (bytesToSectors len) true).fill k 1 false) t) ∨
    (s.HasRoom len ∧ Addable 16 s.rootDir name ∧ ∃ t, (afterInode i name k len).run s2 = .ok (true, t)) := by
  obtain ⟨map, hmap, -⟩ := h₂.mapNode
  obtain ⟨root, hroot2, hdir⟩ := h₂.root
  have hk2 : 2 ≤ k := by
    have h0 := (hun 0 map hmap).1
    have h1 := (hun 1 root hroot2).1
    omega
  have hmark : s2.freeMap.bits k = true := by
    rw [hbits]
    exact Bitmap.fill_true (.inr ⟨le_rfl, by omega⟩)
  have hlt : k < s2.size := hsize ▸ hk.1
  rcases h₂.createNode_exact hmap hlt hmark hun hk2 hlen with
    ⟨s3, nodes3, start, hcreate, h3, hroot3, hmem3, hopen3, hsize3, hbits3, hle, hfree⟩ | ⟨hcreate, hno⟩
  · have hbeside : s.FreeBeside k start (bytesToSectors len) := by
      rw [hbits] at hfree
      exact Fs.freeBeside_iff.2 ⟨hsize ▸ hle, hfree⟩
    have hrootDir : s.rootDir = root.content := h.rootDir (hroot ▸ hroot2)
    obtain ⟨m, hcontent, -, hallowed⟩ :=
      h3.rootContent ((hmem3.sectorAt i).trans hi) (hroot3.trans hroot2)
    rcases dirAdd_run ⟨i⟩ h3.memory hcontent hallowed hdir.length_eq name k with
      ⟨j, hj, hslot, hne, hle14, hunused, hadd⟩ | ⟨hnot, hadd⟩
    · refine .inr (.inr ⟨⟨k, start, hk, hbeside⟩, hrootDir ▸ ⟨hne, hle14, hunused, j, hj, hslot⟩, ?_⟩)
      set s4 := s3.withDisk (store s3.disk (512 * m.data.start + 20 * j) ((entryAt root.content j).renew name k).toBytes)
      obtain ⟨t, hclose, -⟩ := hundo.close hrem (show s4.inodes = s1.inodes from hmem3.inodes.trans hmem.inodes)
        (hopen3.trans hopen)
      refine ⟨t, ?_⟩
      have hsuccess : (createAndAdd ⟨i⟩ name k len).run s2 = .ok (true, s4) := by
        unfold createAndAdd
        rwa [run_bind_ok hcreate, if_pos rfl]
      unfold afterInode
      rw [run_bind_ok hsuccess, run_bind_ok (show (releaseFailed true k).run s4 = .ok ((), s4) from rfl),
        dirClose, run_bind_ok hclose]
      rfl
    · refine .inr (.inl ⟨start, hbeside, hrootDir ▸ hnot, ?_⟩)
      have hfail : (createAndAdd ⟨i⟩ name k len).run s2 = .ok (false, s3) := by
        unfold createAndAdd
        rwa [run_bind_ok hcreate, if_pos rfl]
      have hmark3 : s3.freeMap.bits k = true := by
        rw [hbits3]
        exact Bitmap.fill_true (.inl hmark)
      rw [← hbits, ← hbits3]
      exact hundo.fail hrem (hmem3.inodes.trans hmem.inodes) (hopen3.trans hopen) h3 (by omega) (by omega) hmark3 hfail
  · refine .inl ⟨?_, ?_⟩
    · rintro ⟨k', start, hk', hbeside⟩
      obtain rfl := hk.unique hk'
      obtain ⟨hle, hfree⟩ := Fs.freeBeside_iff.1 hbeside
      obtain ⟨j, hj, hbit⟩ := hno start (hsize ▸ hle)
      rw [hbits, hfree j hj] at hbit
      cases hbit
    · have hfail : (createAndAdd ⟨i⟩ name k len).run s2 = .ok (false, s2) := by
        unfold createAndAdd
        rw [run_bind_ok hcreate]
        rfl
      have hends := hundo.fail hrem hmem.inodes hopen h₂ (by omega) hlt hmark hfail
      rwa [hbits, Bitmap.fill_undo fun x h1 h2 => by rw [show x = k by omega, hk.2.1]] at hends

end

/-- **The ends of a call**: there is no room and nothing has changed, or there is room but the name
    cannot be added and the sectors of the data stay marked, or the file is created. -/
theorem Inv.create_cases (h : Inv s nodes []) (name : Name) {len : ℕ} (hlen : len < 2 ^ 31) :
    (¬ s.HasRoom len ∧ ∃ t, (filesysCreate name len).run s = .ok (false, t) ∧ Ends s s.freeMap t) ∨
    (∃ k start, s.FirstFree k ∧ s.FreeBeside k start (bytesToSectors len) ∧ ¬ Addable 16 s.rootDir name ∧
      ∃ t, (filesysCreate name len).run s = .ok (false, t) ∧
        Ends s (((s.freeMap.fill k 1 true).fill start (bytesToSectors len) true).fill k 1 false) t) ∨
    (s.HasRoom len ∧ Addable 16 s.rootDir name ∧ ∃ t, (filesysCreate name len).run s = .ok (true, t)) := by
  obtain ⟨i, n, o, h', hopen, h₁, hundo, hrem⟩ := h.openRoot_undo
  obtain ⟨map, hmap, -⟩ := h.mapNode
  obtain ⟨file, hfile, hf⟩ := h₁.inv.mapFile_ok hmap
  have hsize := h.size_le
  have hcnt := h.bitCnt_eq
  rcases freeMapAllocate_run (s := s.withInodes o h') 1 h.memory (show s.freeMap.bitCnt < _ by omega) hfile hf with
    ⟨k, halloc, hle, hfree, hfirst⟩ | ⟨halloc, hno⟩
  · have hk : s.FirstFree k := by
      refine ⟨show k < s.size by rwa [← hcnt], hfree 0 (by decide), fun x hx => ?_⟩
      obtain ⟨j, hj, hbit⟩ := hfirst x hx
      rwa [show x + j = x by omega] at hbit
    unfold filesysCreate
    rw [run_bind_ok hopen]
    rw [run_bind_ok halloc]
    obtain ⟨nodes2, h₂, hun, hroot⟩ : ∃ nodes2, Inv ((s.withInodes o h').putMap map.data (s.freeMap.fill k 1 true)) nodes2 [i] ∧
        Unowned nodes2 k ∧ nodes2 1 = nodes 1 := by
      rcases h₁.inv.allocate 1 with ⟨k', s2, nodes2, halloc', h₂, -, -, -, hown, hother⟩ | halloc'
      · obtain ⟨hk', rfl⟩ := ok_inj (halloc'.symm.trans halloc)
        obtain rfl := Option.some.inj hk'
        exact ⟨nodes2, h₂, (hown k' le_rfl (by omega)).2.2.1, hother 1 (by decide)⟩
      · cases halloc'.symm.trans halloc
    rcases h.afterInode_cases hundo hrem h₂ hroot ⟨rfl, rfl, rfl⟩ rfl h₁.sectorAt rfl rfl hk hun name hlen with
      hnoRoom | ⟨start, hbeside, hnot, hfails⟩ | hcreated
    · exact .inl hnoRoom
    · exact .inr (.inl ⟨k, start, hk, hbeside, hnot, hfails⟩)
    · exact .inr (.inr hcreated)
  · -- there is no sector for the inode
    have hno' : ∀ x < s.size, s.freeMap.bits x = true := by
      intro x hx
      obtain ⟨j, hj, hbit⟩ := hno x (show x + 1 ≤ s.freeMap.bitCnt by omega)
      rwa [show x + j = x by omega] at hbit
    refine .inl ⟨?_, hundo.noSector hrem rfl hopen halloc name len⟩
    rintro ⟨k, start, hk, -⟩
    have := hno' k hk.1
    rw [hk.2.1] at this
    cases this

/-- A call with a negative size stops at the assertion of `inode_create`, unless there is no free sector. -/
theorem Inv.create_negative_ends (h : Inv s nodes []) (hneg : size < 0)
    (hrun : (filesysCreate name size).run s = .ok (false, t)) : Ends s s.freeMap t := by
  obtain ⟨i, n, o, h', hopen, h₁, hundo, hrem⟩ := h.openRoot_undo
  rcases h₁.inv.allocate 1 with ⟨k, s2, -, halloc, -⟩ | halloc
  · exact absurd hrun (not_create_negative hneg hopen halloc)
  · obtain ⟨t', hrun', hends⟩ := hundo.noSector hrem rfl hopen halloc name size
    obtain ⟨-, rfl⟩ := ok_inj (hrun'.symm.trans hrun)
    exact hends

theorem bytesToSectors_pos (h0 : 0 < size) (h31 : size < 2 ^ 31) : 0 < bytesToSectors size := by
  obtain ⟨len, rfl⟩ := Int.eq_ofNat_of_zero_le h0.le
  by_cases hbig : len + 511 < 2 ^ 31
  · rw [bytesToSectors_eq hbig, sectorsOf]
    omega
  · have := lt_bytesToSectors (show 2 ^ 31 ≤ (len : ℤ) + 511 by omega) h31
    omega

theorem Ends.untouched (h : Inv s nodes []) (ht : Inv t nodes' []) (hroot : nodes' 1 = nodes 1)
    (hends : Ends s s.freeMap t) : Untouched s t := by
  obtain ⟨map, hmap, hcontent⟩ := h.mapNode
  obtain ⟨map', hmap', hcontent'⟩ := ht.mapNode
  obtain ⟨root, hroot', -⟩ := h.root
  refine ⟨hends.freeMap, fun x hx => ?_, ?_, hends.openInodes, hends.inodes⟩
  · rw [← h.bitCnt_eq] at hx
    unfold Fs.storedMap
    rw [h.fileBytes hmap, ht.fileBytes hmap', hcontent.2 x hx, hcontent'.2 x (by rw [hends.freeMap]; exact hx), hends.freeMap]
  · rw [h.rootDir hroot', ht.rootDir (hroot.trans hroot')]

/-- **A failed call changes nothing** exactly when the file is to have no data, or the name can be
    added to the root directory, or there is no room for the file. -/
theorem create_untouched_iff (h : s.Formatted) (name : Name) {size : ℤ} (hsize : size < 2 ^ 31) :
    s.FailsUntouched name size ↔ size ≤ 0 ∨ Addable 16 s.rootDir name ∨ ¬ s.HasRoom size := by
  obtain ⟨a, nodes, hrel⟩ := h.sim
  have hinv := hrel.inv
  rcases lt_or_ge size 0 with hneg | h0
  · refine iff_of_true (fun t hrun => ?_) (.inl hneg.le)
    obtain ⟨nodes', -, ht, -, hroot, -⟩ := hinv.create_negative hneg hrun
    exact (hinv.create_negative_ends hneg hrun).untouched hinv ht hroot
  · obtain ⟨len, rfl⟩ := Int.eq_ofNat_of_zero_le h0
    -- a call that fails with the free map as before has changed nothing
    have hfail : ∀ {t}, (filesysCreate name len).run s = .ok (false, t) → Ends s s.freeMap t →
        s.FailsUntouched name len := by
      intro t hrun hends t' hrun'
      obtain ⟨-, rfl⟩ := ok_inj (hrun.symm.trans hrun')
      rcases hinv.create name len (by omega) with ⟨t', _, _, _, hrun', -⟩ | ⟨t', nodes', hrun', ht, -, hroot, -⟩
      · cases hrun'.symm.trans hrun
      · obtain ⟨-, rfl⟩ := ok_inj (hrun'.symm.trans hrun)
        exact hends.untouched hinv ht hroot
    rcases hinv.create_cases name (show len < 2 ^ 31 by omega) with
      ⟨hno, t, hrun, hends⟩ | ⟨k, start, hk, hbeside, hnot, t, hrun, hends⟩ | ⟨hroom, hadd, t, hrun⟩
    · exact iff_of_true (hfail hrun hends) (.inr (.inr hno))
    · constructor
      · intro huntouched
        by_contra hpos
        have hleak := hbeside.leaked (bytesToSectors_pos (by omega) hsize)
        have hsame := hends.freeMap.symm.trans (huntouched t hrun).freeMap
        rw [hsame, hleak.2] at hleak
        cases hleak.1
      · rintro (hzero | hadd | hno)
        · obtain rfl : len = 0 := by omega
          rw [show bytesToSectors (0 : ℕ) = 0 from rfl, Bitmap.fill_zero,
            Bitmap.fill_undo fun x h1 h2 => by rw [show x = k by omega, hk.2.1]] at hends
          exact hfail hrun hends
        · exact absurd hadd hnot
        · exact absurd ⟨k, start, hk, hbeside⟩ hno
    · refine iff_of_true (fun t' hrun' => ?_) (.inr (.inl hadd))
      cases hrun.symm.trans hrun'

theorem create_untouched_empty : Files.twoFiles.Formatted ∧ Files.twoFiles.FailsUntouched Files.nameA 0 :=
  ⟨Files.twoFiles_formatted, (create_untouched_iff Files.twoFiles_formatted Files.nameA (by decide)).2 (.inl le_rfl)⟩

/-- The name of a file is in use; a file of one byte with that name is not created, and the sector for
    its data stays marked. -/
theorem create_leaks : Files.twoFiles.Formatted ∧ ∃ t, (filesysCreate Files.nameA 1).run Files.twoFiles = .ok (false, t) ∧
    t.freeMap.bits 9 = true ∧ Files.twoFiles.freeMap.bits 9 = false ∧ ¬ Untouched Files.twoFiles t := by
  have hrun : ((filesysCreate Files.nameA 1).run Files.twoFiles).toOption.map (fun r => (r.1, r.2.freeMap.bits 9)) =
      some (false, true) := by decide +kernel
  have hbefore : Files.twoFiles.freeMap.bits 9 = false := by decide +kernel
  refine ⟨Files.twoFiles_formatted, ?_⟩
  cases hcall : (filesysCreate Files.nameA 1).run Files.twoFiles with
  | error e =>
    rw [hcall] at hrun
    cases hrun
  | ok r =>
    rw [hcall] at hrun
    obtain ⟨hfalse, hafter⟩ := Prod.mk.inj (Option.some.inj hrun)
    refine ⟨r.2, by rw [← hfalse], hafter, hbefore, fun h => ?_⟩
    rw [h.freeMap, hbefore] at hafter
    cases hafter

end Pintos
