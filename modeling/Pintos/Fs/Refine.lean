/-
  The file system refines the store.

  A file of the store is the sector of its inode.  `Rel` relates a state of the file system to a store: the
  names that are bound, the bytes of the files that are named or open, and the handles with their positions.
-/
import Pintos.Fs.Calls
import Pintos.Fs.Store
import Pintos.Lib.Simulation

namespace Pintos

open Lib Prog Function List

variable {s t : Fs} {nodes nodes' : Nodes} {file k : ℕ} {name : Name} {a : Store}

/-! ## The calls -/

/-- The nodes of files after a call are those before. -/
def Subset (nodes' nodes : Nodes) : Prop := ∀ k m, 2 ≤ k → nodes' k = some m → nodes k = some m

variable {i : ℕ}

theorem Inv.create_full {s1 : Fs} (h₁ : Opens s nodes [] 1 i s1) (hopen : dirOpenRoot.run s = .ok (some ⟨i⟩, s1))
    (halloc : (freeMapAllocate 1).run s1 = .ok (none, s1)) (name : Name) (size : ℤ) :
    ∃ t nodes', (filesysCreate name size).run s = .ok (false, t) ∧ Inv t nodes' [] ∧ SameFiles s t ∧
      nodes' 1 = nodes 1 ∧ Subset nodes' nodes := by
  obtain ⟨s2, nodes2, hclose, h₂⟩ := h₁.inv.closeRef
  refine ⟨s2, nodes2, ?_, h₂.inv, h₁.same.trans h₂.same, h₂.root, fun j m hj => h₂.subset j m (by omega)⟩
  unfold filesysCreate
  rw [run_bind_ok hopen]
  rw [run_bind_ok halloc]
  rw [dirClose, run_bind_ok hclose]
  rfl

theorem Inv.create_failed (h : Inv s nodes [i]) (hun : Unowned nodes k) (hlt : k < s.size)
    (hmark : s.freeMap.bits k = true) (hk : 2 ≤ k) :
    ∃ t nodes', (do releaseFailed false k; dirClose (some ⟨i⟩); pure false : FsM Bool).run s = .ok (false, t) ∧
      Inv t nodes' [] ∧ SameFiles s t ∧ nodes' 1 = nodes 1 ∧ Subset nodes' nodes := by
  obtain ⟨s1, nodes1, hrel, h₁, hmem1, hother1⟩ := h.release hlt hmark hun
  obtain ⟨s2, nodes2, hclose, h₂⟩ := h₁.closeRef
  refine ⟨s2, nodes2, ?_, h₂.inv, hmem1.sameFiles.trans h₂.same, ?_, fun j m hj hm => ?_⟩
  · have hrel' : (releaseFailed false k).run s = .ok ((), s1) := by
      unfold releaseFailed
      rwa [if_pos (by simp; omega)]
    rw [run_bind_ok hrel', dirClose, run_bind_ok hclose]
    rfl
  · rw [h₂.root, hother1 1 (by decide)]
  · rw [← hother1 j (by omega)]
    exact h₂.subset j m (by omega) hm

/-- **`filesys_create`** binds a new name to a new file of zeros, or changes no file. -/
theorem Inv.create (h : Inv s nodes []) (name : Name) (len : ℕ) (hlen : len < 2 ^ 31) :
    (∃ t nodes' k start, (filesysCreate name len).run s = .ok (true, t) ∧ Inv t nodes' [] ∧ SameFiles s t ∧
      name.val ≠ [] ∧ name.val.length ≤ 14 ∧ (∀ k', ¬ Bound nodes name k') ∧
      (∀ name' k', Bound nodes' name' k' ↔ Bound nodes name' k' ∨ name' = name ∧ k' = k) ∧
      2 ≤ k ∧ nodes k = none ∧ nodes' k = some ⟨start, List.replicate len 0⟩ ∧
      ∀ j m, 2 ≤ j → j ≠ k → nodes' j = some m → nodes j = some m) ∨
    (∃ t nodes', (filesysCreate name len).run s = .ok (false, t) ∧ Inv t nodes' [] ∧ SameFiles s t ∧
      nodes' 1 = nodes 1 ∧ Subset nodes' nodes) := by
  obtain ⟨i, s1, hopen, h₁⟩ := h.openRoot
  rcases h₁.inv.allocate 1 with ⟨k, s2, nodes2, halloc, h₂, hmem2, hsize2, hle, hown, hother2⟩ | halloc
  · unfold filesysCreate
    rw [run_bind_ok hopen]
    rw [run_bind_ok halloc]
    obtain ⟨-, hmark, hun2, hun⟩ := hown k le_rfl (by omega)
    have hi2 : s2.sectorAt i = some 1 := (hmem2.sectorAt i).trans h₁.sectorAt
    have hnone : nodes k = none := by
      cases hk : nodes k with
      | none => rfl
      | some n => exact absurd rfl (hun k n hk).1
    have hk2 : 2 ≤ k := by
      obtain ⟨map, hmap, -⟩ := h.mapNode
      obtain ⟨root, hroot, -⟩ := h.root
      have h0 := (hun 0 map hmap).1
      have h1 := (hun 1 root hroot).1
      omega
    have hsame2 : SameFiles s s2 := h₁.same.trans hmem2.sameFiles
    rcases h₂.createNode (by omega) hmark hun2 hlen with
      ⟨s3, nodes3, start, hcreate, h₃, hmem3, hsize3, hmark3, hnew, hother3⟩ | hcreate
    · have hi3 : s3.sectorAt i = some 1 := (hmem3.sectorAt i).trans hi2
      have hone : nodes3 1 = nodes 1 := by
        rw [hother3 1 (by decide) (by omega), hother2 1 (by decide)]
      have hkept : ¬ Kept nodes3 k := by
        rw [kept_congr hone]
        intro hk
        obtain ⟨n, hn⟩ := h.kept_node hk
        rw [hnone] at hn
        cases hn
      -- no open inode has the new sector
      have hclosed : ∀ {j m}, s3.inodes.get j = some m → m.sector ≠ k := by
        intro j m hm hms
        rw [hmem3.inodes] at hm
        obtain ⟨nd, hnd, -⟩ := h₂.node hm
        exact (hun2 _ nd hnd).1 hms
      have hsame3 := hsame2.trans hmem3.sameFiles
      rcases h₃.addEntry hi3 hnew hkept hclosed name with
        ⟨s4, nodes4, hadd, h4, hmem4, hne, hle14, hunbound, hbound, hother4⟩ | hadd
      · obtain ⟨s5, nodes5, hclose, h5⟩ := h4.closeRef
        have hk5 : Bound nodes5 name k := by
          rw [bound_congr h5.root, hbound]
          exact .inr ⟨rfl, rfl⟩
        refine .inl ⟨s5, nodes5, k, start, ?_, h5.inv, (hsame3.trans hmem4.sameFiles).trans h5.same, hne, hle14,
          fun k' => ?_, fun name' k' => ?_, hk2, hnone, ?_, fun j m hj hjk hm => ?_⟩
        · have hsuccess : (createAndAdd ⟨i⟩ name k len).run s2 = .ok (true, s4) := by
            unfold createAndAdd
            rwa [run_bind_ok hcreate]
          rw [run_bind_ok hsuccess, run_bind_ok (rfl),
            dirClose, run_bind_ok hclose]
          rfl
        · rw [← bound_congr hone]
          exact hunbound k'
        · rw [bound_congr h5.root, hbound, bound_congr hone]
        · obtain ⟨m, hm⟩ := h5.inv.kept_node (Inv.bound_kept hk5)
          have := h5.subset k m (by omega) hm
          rw [hother4 k (by omega), hnew] at this
          rw [hm, ← this]
        · have hm4 := h5.subset j m (by omega) hm
          rwa [hother4 j (by omega), hother3 j (by omega) hjk, hother2 j (by omega)] at hm4
      · have hfail : (createAndAdd ⟨i⟩ name k len).run s2 = .ok (false, s3) := by
          unfold createAndAdd
          rwa [run_bind_ok hcreate]
        rw [run_bind_ok hfail]
        obtain ⟨s4, nodes4, hrun, h4, hsame4, hone4, hsub4⟩ :=
          (h₃.erase hkept hclosed).create_failed (h₃.layout.unowned hnew) (by omega) hmark3 hk2
        refine .inr ⟨s4, nodes4, hrun, h4, hsame3.trans hsame4, ?_, fun j m hj hm => ?_⟩
        · rw [hone4, update_of_ne (by omega), hone]
        · have hm3 := hsub4 j m hj hm
          rw [update_apply] at hm3
          split_ifs at hm3 with hjk
          rwa [hother3 j (by omega) hjk, hother2 j (by omega)] at hm3
    · have hfail : (createAndAdd ⟨i⟩ name k len).run s2 = .ok (false, s2) := by
        unfold createAndAdd
        rw [run_bind_ok hcreate]
        rfl
      rw [run_bind_ok hfail]
      obtain ⟨s3, nodes3, hrun, h₃, hsame3, hone3, hsub3⟩ := h₂.create_failed hun2 (by omega) hmark hk2
      refine .inr ⟨s3, nodes3, hrun, h₃, hsame2.trans hsame3, ?_, fun j m hj hm => ?_⟩
      · rw [hone3, hother2 1 (by decide)]
      · rw [← hother2 j (by omega)]
        exact hsub3 j m hj hm
  · exact .inr (Inv.create_full h₁ hopen halloc name len)

variable {size : ℤ}

theorem not_create_negative {s1 s2 : Fs} {b : Bool} (hneg : size < 0)
    (hopen : dirOpenRoot.run s = .ok (some ⟨i⟩, s1)) (halloc : (freeMapAllocate 1).run s1 = .ok (some k, s2)) :
    (filesysCreate name size).run s ≠ .ok (b, t) := by
  intro hrun
  unfold filesysCreate at hrun
  rw [run_bind_ok hopen] at hrun
  rw [run_bind_ok halloc] at hrun
  obtain ⟨_, _, hadd, -⟩ := ok_of_run_bind hrun
  obtain ⟨_, _, hcreate, -⟩ := ok_of_run_bind hadd
  unfold inodeCreate at hcreate
  rw [if_pos hneg] at hcreate
  cases hcreate

theorem Inv.create_negative {b : Bool} (h : Inv s nodes []) (hneg : size < 0)
    (hrun : (filesysCreate name size).run s = .ok (b, t)) :
    ∃ nodes', b = false ∧ Inv t nodes' [] ∧ SameFiles s t ∧ nodes' 1 = nodes 1 ∧ Subset nodes' nodes := by
  obtain ⟨i, s1, hopen, h₁⟩ := h.openRoot
  rcases h₁.inv.allocate 1 with ⟨k, s2, nodes2, halloc, -⟩ | halloc
  · exact absurd hrun (not_create_negative hneg hopen halloc)
  · obtain ⟨t', nodes', hrun', h', hsame, hone, hsub⟩ := Inv.create_full h₁ hopen halloc name size
    obtain ⟨rfl, rfl⟩ := ok_inj (hrun'.symm.trans hrun)
    exact ⟨nodes', rfl, h', hsame, hone, hsub⟩

theorem Inv.openFile (h : Inv s nodes [i]) :
    (fileOpen (some i)).run s = .ok (some s.files.next, s.withFiles (s.files.alloc ⟨i, 0, false⟩)) ∧
    Inv (s.withFiles (s.files.alloc ⟨i, 0, false⟩)) nodes [] ∧
    (∀ f, (s.withFiles (s.files.alloc ⟨i, 0, false⟩)).fileSector f =
      if f = s.files.next then s.sectorAt i else s.fileSector f) ∧ s.freeMapFile ≠ some s.files.next := by
  have hsec : ∀ f, (s.withFiles (s.files.alloc ⟨i, 0, false⟩)).fileSector f =
      if f = s.files.next then s.sectorAt i else s.fileSector f := by
    intro f
    change ((s.files.alloc ⟨i, 0, false⟩).get f).bind _ = _
    split_ifs with hf
    · rw [hf, Heap.get_alloc_self]
      rfl
    · rw [Heap.get_alloc_of_ne hf]
      rfl
  have hmap : s.freeMapFile ≠ some s.files.next := by
    obtain ⟨f, hf, h0⟩ := h.mapFile
    rw [hf]
    intro hnext
    obtain ⟨fl, hfl, -⟩ := Option.bind_eq_some_iff.1 h0
    rw [Option.some.inj hnext, s.files.get_next _ le_rfl] at hfl
    cases hfl
  refine ⟨?_, ⟨h.memory, h.size_le, h.bitCnt_eq, h.stored, h.layout, h.opened.openFile, ?_, h.mapNode, h.root⟩, hsec, hmap⟩
  · unfold fileOpen
    rw [run_bind_ok (malloc_run h.memory)]
    rfl
  · obtain ⟨f, hf, h0⟩ := h.mapFile
    refine ⟨f, hf, ?_⟩
    rw [hsec, if_neg, h0]
    rintro rfl
    exact hmap hf

/-- **`filesys_open`** gives a handle on the file that the name is bound to. -/
theorem Inv.open (h : Inv s nodes []) (name : Name) :
    (∃ t nodes' k, (filesysOpen name).run s = .ok (some s.files.next, t) ∧ Inv t nodes' [] ∧ Bound nodes name k ∧
      nodes' 1 = nodes 1 ∧ Subset nodes' nodes ∧ t.freeMapFile = s.freeMapFile ∧ s.freeMapFile ≠ some s.files.next ∧
      (∀ f, t.fileSector f = if f = s.files.next then some k else s.fileSector f) ∧
      (∀ f ≠ s.files.next, t.files.get f = s.files.get f) ∧ ∃ i, t.files.get s.files.next = some ⟨i, 0, false⟩) ∨
    ((∀ k, ¬ Bound nodes name k) ∧ ∃ t nodes', (filesysOpen name).run s = .ok (none, t) ∧ Inv t nodes' [] ∧
      SameFiles s t ∧ nodes' 1 = nodes 1 ∧ Subset nodes' nodes) := by
  obtain ⟨i, s1, hopen, h₁⟩ := h.openRoot
  obtain ⟨root, hroot, hdir⟩ := h.root
  obtain ⟨n, hcontent, -⟩ := h₁.inv.rootContent h₁.sectorAt hroot
  unfold filesysOpen
  rw [run_bind_ok hopen]
  dsimp only
  rcases lookup_run ⟨i⟩ h₁.inv.memory hcontent hdir.slots_eq name with ⟨j, hj, hnm, hrun⟩ | ⟨hno, hrun⟩
  · have hbound : Bound nodes name (entryAt root.content j).inodeSector :=
      (bound_iff hroot _ _).2 ⟨j, hj, hnm, rfl⟩
    obtain ⟨r, s2, hopen2, h₂⟩ := h₁.inv.openInode (Inv.bound_kept hbound)
    have hlookup : (dirLookup ⟨i⟩ name).run s1 = .ok (some r, s2) := by
      unfold dirLookup
      rwa [run_bind_ok hrun]
    obtain ⟨s3, nodes3, hclose, h₃⟩ := (h₂.inv.perm (List.Perm.swap i r [])).closeRef
    obtain ⟨hfile, h4, hsec, hmap⟩ := h₃.inv.openFile
    have hsame := (h₁.same.trans h₂.same).trans h₃.same
    rw [hsame.files] at hfile h4 hsec hmap
    refine .inl ⟨_, nodes3, _, ?_, h4, hbound, h₃.root, fun k m hk => h₃.subset k m (by omega), hsame.freeMapFile,
      hsame.freeMapFile ▸ hmap, fun f => ?_, fun f hf => Heap.get_alloc_of_ne hf, r, Heap.get_alloc_self⟩
    · rw [run_bind_ok hlookup, dirClose, run_bind_ok hclose, hfile]
    · rw [hsec, hsame.fileSector, h₃.refs r mem_cons_self, h₂.sectorAt]
  · refine .inr ⟨fun k hk => ?_, ?_⟩
    · obtain ⟨l, hl, hnm, -⟩ := (bound_iff hroot name k).1 hk
      rw [hno l hl] at hnm
      cases hnm
    · have hlookup : (dirLookup ⟨i⟩ name).run s1 = .ok (none, s1) := by
        unfold dirLookup
        rw [run_bind_ok hrun]
        rfl
      obtain ⟨s2, nodes2, hclose, h₂⟩ := h₁.inv.closeRef
      refine ⟨s2, nodes2, ?_, h₂.inv, h₁.same.trans h₂.same, h₂.root, fun k m hk => h₂.subset k m (by omega)⟩
      rw [run_bind_ok hlookup, dirClose, run_bind_ok hclose]
      unfold fileOpen
      rw [run_bind_ok (malloc_run h₂.inv.memory)]
      rfl

/-- **`filesys_remove`** unbinds the name. -/
theorem Inv.remove (h : Inv s nodes []) (name : Name) :
    (∃ t nodes', (filesysRemove name).run s = .ok (true, t) ∧ Inv t nodes' [] ∧ SameFiles s t ∧
      (∃ k, Bound nodes name k) ∧ (∀ name' k', Bound nodes' name' k' ↔ Bound nodes name' k' ∧ name' ≠ name) ∧
      Subset nodes' nodes) ∨
    ((∀ k, ¬ Bound nodes name k) ∧ ∃ t nodes', (filesysRemove name).run s = .ok (false, t) ∧ Inv t nodes' [] ∧
      SameFiles s t ∧ nodes' 1 = nodes 1 ∧ Subset nodes' nodes) := by
  obtain ⟨i, s1, hopen, h₁⟩ := h.openRoot
  unfold filesysRemove
  rw [run_bind_ok hopen]
  rcases h₁.inv.removeEntry h₁.sectorAt name with ⟨s2, nodes2, hrun, h₂, hsame2, -, hex, hbound, hsub⟩ | ⟨hno, hrun⟩
  · obtain ⟨s3, nodes3, hclose, h₃⟩ := h₂.closeRef
    refine .inl ⟨s3, nodes3, ?_, h₃.inv, (h₁.same.trans hsame2).trans h₃.same, hex, fun name' k' => ?_,
      fun k m hk hm => hsub k m hk (h₃.subset k m (by omega) hm)⟩
    · rw [run_bind_ok hrun, dirClose, run_bind_ok hclose]
      rfl
    · rw [bound_congr h₃.root, hbound]
  · obtain ⟨s2, nodes2, hclose, h₂⟩ := h₁.inv.closeRef
    refine .inr ⟨hno, s2, nodes2, ?_, h₂.inv, h₁.same.trans h₂.same, h₂.root, fun k m hk => h₂.subset k m (by omega)⟩
    rw [run_bind_ok hrun, dirClose, run_bind_ok hclose]
    rfl

theorem closed_withFiles (s : Fs) (d : InodeDisk) (i : ℕ) (n : Inode) (files : Heap File) :
    (s.closed d i n).withFiles files = (s.withFiles files).closed d i n := by
  unfold Fs.closed Fs.closeInode
  split_ifs <;> rfl

theorem files_closed (s : Fs) (d : InodeDisk) (i : ℕ) (n : Inode) : (s.closed d i n).files = s.files := by
  unfold Fs.closed Fs.closeInode
  split_ifs <;> rfl

section
variable {f : File}

section

variable (h : Inv s nodes []) (hf : s.files.get file = some f)
include h hf

theorem Inv.allowWrite :
    ∃ t, (fileAllowWrite file).run s = .ok ((), t) ∧ Inv t nodes [] ∧ t.freeMapFile = s.freeMapFile ∧
      t.fileSector = s.fileSector ∧ t.files.get file = some { f with denyWrite := false } ∧
      ∀ g ≠ file, t.files.get g = s.files.get g := by
  cases hw : f.denyWrite with
  | false => exact ⟨s, fileAllowWrite_run_of_not hf hw, h, rfl, rfl, by rw [hf, ← hw], fun _ _ => rfl⟩
  | true =>
    obtain ⟨n, hn⟩ := h.opened.file_inode hf
    have hpos : 0 < n.denyWriteCnt := by
      have := fileDenials_pos hf hw
      rw [h.opened.denyWriteCnt_eq hn]
      omega
    have hsec : (s.setDeny file f n false (n.denyWriteCnt - 1)).fileSector = s.fileSector := fileSector_setDeny hf hn
    have hsys : ¬ n.sector < 2 := fun hlt => by
      have := h.opened.system_file hf hn hlt
      rw [hw] at this
      cases this
    have hopen := h.opened.setDeny (b := false) (c := n.denyWriteCnt - 1) hf hn (by rw [hw]; simp) fun hlt => absurd hlt hsys
    refine ⟨_, fileAllowWrite_run hf hn hw hpos (h.opened.denyWriteCnt_le hn),
      ⟨h.memory, h.size_le, h.bitCnt_eq, h.stored, h.layout, hopen, ?_, h.mapNode, h.root⟩, rfl, hsec, ?_, fun g hg => ?_⟩
    · rw [hsec]
      exact h.mapFile
    · exact (Heap.get_set hf _).trans (if_pos rfl)
    · exact (Heap.get_set hf _).trans (if_neg hg)

theorem Inv.closeAllowed (hw : f.denyWrite = false)
    (hne : s.freeMapFile ≠ some file) :
    ∃ t nodes', (do inodeClose (some f.inode); modify fun s => s.withFiles (s.files.free file) : FsM Unit).run s =
        .ok ((), t) ∧
      Inv t nodes' [] ∧ nodes' 1 = nodes 1 ∧ Subset nodes' nodes ∧
      t.freeMapFile = s.freeMapFile ∧ (∀ g, t.fileSector g = if g = file then none else s.fileSector g) ∧
      ∀ g, t.files.get g = if g = file then none else s.files.get g := by
  obtain ⟨n, hn⟩ := h.opened.file_inode hf
  obtain ⟨map, hmap, -⟩ := h.mapNode
  have hsec : ∀ g, (s.withFiles (s.files.free file)).fileSector g = if g = file then none else s.fileSector g := by
    intro g
    change ((s.files.free file).get g).bind _ = _
    rw [Heap.get_free]
    split_ifs <;> rfl
  -- the handle as a reference
  have h₁ : Inv (s.withFiles (s.files.free file)) nodes [f.inode] := by
    refine ⟨h.memory, h.size_le, h.bitCnt_eq, h.stored, h.layout, h.opened.closeFile hf hw, ?_, h.mapNode, h.root⟩
    obtain ⟨g, hg, h0⟩ := h.mapFile
    refine ⟨g, hg, ?_⟩
    rw [hsec, if_neg, h0]
    rintro rfl
    exact hne hg
  obtain ⟨nodes', h₂, hone, hsub⟩ := h₁.closed hmap hn
  obtain ⟨hsame, -⟩ := h₁.opened.closed_frame hn
  refine ⟨_, nodes', ?_, h₂, hone, fun k m hk => hsub k m (by omega), hsame.freeMapFile, fun g => ?_, fun g => ?_⟩
  · rw [run_bind_ok (h.closed_run hmap hn), run_modify, files_closed, closed_withFiles]
  · rw [hsame.fileSector, hsec]
  · rw [hsame.files]
    exact Heap.get_free ..

/-- **`file_close`** closes the handle. -/
theorem Inv.close (hne : s.freeMapFile ≠ some file) :
    ∃ t nodes', (fileClose file).run s = .ok ((), t) ∧ Inv t nodes' [] ∧ nodes' 1 = nodes 1 ∧ Subset nodes' nodes ∧
      t.freeMapFile = s.freeMapFile ∧ (∀ g, t.fileSector g = if g = file then none else s.fileSector g) ∧
      ∀ g, t.files.get g = if g = file then none else s.files.get g := by
  obtain ⟨s1, hallow, h₁, hmap1, hsec1, hf1, hfiles1⟩ := h.allowWrite hf
  obtain ⟨t, nodes', hrun, h₂, hone, hsub, hmap, hsec, hfiles⟩ := h₁.closeAllowed hf1 rfl (hmap1 ▸ hne)
  refine ⟨t, nodes', ?_, h₂, hone, hsub, hmap.trans hmap1, fun g => by rw [hsec, hsec1], fun g => ?_⟩
  · unfold fileClose
    rwa [run_bind_ok hallow, run_bind_ok (getFile_run hf1)]
  · rw [hfiles]
    split_ifs with hg
    · rfl
    · exact hfiles1 g hg

end

theorem fileSector_set_pos {pos : ℕ} (hf : s.files.get file = some f) :
    (s.withFiles (s.files.set file { f with pos })).fileSector = s.fileSector := by
  funext g
  rw [Fs.fileSector_eq, Fs.fileSector_eq]
  change ((s.files.set file { f with pos }).get g).bind _ = _
  rw [Heap.get_set hf]
  split_ifs with hg
  · rw [hg, hf]
    rfl
  · rfl

theorem Inv.move {pos : ℕ} (h : Inv s nodes []) (hf : s.files.get file = some f) :
    Inv (s.withFiles (s.files.set file { f with pos })) nodes [] := by
  refine ⟨h.memory, h.size_le, h.bitCnt_eq, h.stored, h.layout, h.opened.moveFile hf, ?_, h.mapNode, h.root⟩
  rw [fileSector_set_pos hf]
  exact h.mapFile

theorem Inv.handle (h : Inv s nodes []) (hf : s.files.get file = some f) (hk : s.fileSector file = some k) :
    ∃ n nd, nodes k = some nd ∧ Content s f.inode n nd.content ∧ n.data.start = nd.start := by
  obtain ⟨n, hn⟩ := h.opened.file_inode hf
  have hsec : n.sector = k := by
    rw [Fs.fileSector_eq, hf] at hk
    obtain ⟨m, hm, hk⟩ := Option.map_eq_some_iff.1 hk
    rw [← hk, Option.some.inj (hm.symm.trans hn)]
  obtain ⟨nd, hnd, hdata⟩ := h.node hn
  exact ⟨n, nd, hsec ▸ hnd, h.content hn hnd, by rw [← hdata]; rfl⟩

/-- **`file_read`** returns the bytes at the position. -/
theorem Inv.read {nd : Node} (h : Inv s nodes []) (hf : s.files.get file = some f) (hk : s.fileSector file = some k)
    (hnd : nodes k = some nd) (size : ℤ) :
    (fileRead file size).run s = .ok ((nd.content.drop f.pos).take size.toNat,
      s.withFiles (s.files.set file { f with pos := f.pos + Store.inside nd.content size f.pos })) := by
  obtain ⟨n, nd', hnd', hcontent, -⟩ := h.handle hf hk
  cases hnd.symm.trans hnd'
  have hlen : ((nd.content.drop f.pos).take size.toNat).length = Store.inside nd.content size f.pos := by
    rw [length_take, length_drop]
    rfl
  unfold fileRead
  rw [run_bind_ok (getFile_run hf), run_bind_ok (hcontent.read h.memory _ _), hlen]
  rfl

/-- **`file_write`** replaces the bytes at the position. -/
theorem Inv.writeFile {nd : Node} (h : Inv s nodes []) (hf : s.files.get file = some f)
    (hk : s.fileSector file = some k) (hk2 : 2 ≤ k) (hnd : nodes k = some nd) (hw : s.fileDenials f.inode = 0)
    (buffer : ℕ → UInt8) (size : ℤ) :
    ∃ t, (fileWrite file buffer size).run s = .ok (Store.inside nd.content size f.pos, t) ∧
      Inv t (update nodes k (some ⟨nd.start, overwrite nd.content f.pos
        (slice buffer 0 (Store.inside nd.content size f.pos))⟩)) [] ∧
      t.freeMapFile = s.freeMapFile ∧ t.fileSector = s.fileSector ∧
      t.files = s.files.set file { f with pos := f.pos + Store.inside nd.content size f.pos } := by
  obtain ⟨n, nd', hnd', hcontent, hstart⟩ := h.handle hf hk
  cases hnd.symm.trans hnd'
  have hallow : n.denyWriteCnt = 0 := by
    rw [h.opened.denyWriteCnt_eq hcontent.get, hw]
    rfl
  have hwrite := hcontent.write h.memory hallow buffer size f.pos
  rw [hstart] at hwrite
  have hinv : Inv (s.withDisk (store s.disk (512 * nd.start + f.pos)
      (slice buffer 0 (Store.inside nd.content size f.pos))))
      (update nodes k (some ⟨nd.start, overwrite nd.content f.pos
        (slice buffer 0 (Store.inside nd.content size f.pos))⟩)) [] := by
    by_cases hpos : f.pos ≤ nd.content.length
    · refine h.write hnd hk2 ?_
      rw [length_slice]
      unfold Store.inside
      omega
    · -- behind the end nothing is written
      have hzero : Store.inside nd.content size f.pos = 0 := by unfold Store.inside; omega
      rw [hzero, slice_zero, store_nil, overwrite_nil]
      have hid : update nodes k (some nd) = nodes := by rw [← hnd]; exact update_eq_self ..
      rwa [hid]
  refine ⟨_, ?_, hinv.move hf, rfl, ?_, rfl⟩
  · unfold fileWrite
    rw [run_bind_ok (getFile_run hf), run_bind_ok hwrite]
    rfl
  · exact fileSector_set_pos hf

end

/-! ## The relation -/

/-- The file and the position of a handle. -/
def Fs.handle (s : Fs) (file : ℕ) : Option (ℕ × ℕ) :=
  if s.freeMapFile = some file then none
  else (s.fileSector file).bind fun k => (s.files.get file).map fun f => (k, f.pos)

/-- No file denies writes. -/
def Fs.Allowed (s : Fs) : Prop := ∀ file f, s.files.get file = some f → f.denyWrite = false

theorem Fs.Allowed.fileDenials (h : s.Allowed) (i : ℕ) : s.fileDenials i = 0 := by
  by_contra hne
  obtain ⟨file, f, hf, hw⟩ := Heap.count_pos_iff.1 (Nat.pos_of_ne_zero hne)
  rw [h file f hf, Bool.and_false] at hw
  cases hw

structure Rel (nodes : Nodes) (s : Fs) (a : Store) : Prop where
  inv : Inv s nodes []
  allowed : s.Allowed
  names : ∀ name k, a.names name = some k ↔ Bound nodes name k
  bytes : ∀ k n, 2 ≤ k → nodes k = some n → a.bytes k = n.content
  handles : a.handles = s.handle
  handle_le : ∀ file k, s.freeMapFile ≠ some file → s.fileSector file = some k → 2 ≤ k

/-- The states that are related to a store. -/
def Sim (s : Fs) (a : Store) : Prop := ∃ nodes, Rel nodes s a

theorem handle_eq_some {p : ℕ × ℕ} (h : s.handle file = some p) :
    ∃ f, s.freeMapFile ≠ some file ∧ s.fileSector file = some p.1 ∧ s.files.get file = some f ∧ f.pos = p.2 := by
  unfold Fs.handle at h
  split_ifs at h with hne
  obtain ⟨k, hk, h⟩ := Option.bind_eq_some_iff.1 h
  obtain ⟨f, hf, rfl⟩ := Option.map_eq_some_iff.1 h
  exact ⟨f, hne, hk, hf, rfl⟩

theorem SameFiles.allowed (h : SameFiles s t) (hs : s.Allowed) : t.Allowed := by
  unfold Fs.Allowed
  rwa [h.files]

theorem Fs.Allowed.move {f : File} {pos : ℕ} (h : s.Allowed) (hf : s.files.get file = some f)
    (hfiles : t.files = s.files.set file { f with pos }) : t.Allowed := by
  intro g fl hg
  rw [hfiles, Heap.get_set hf] at hg
  split_ifs at hg
  · rw [← Option.some.inj hg]
    exact h file f hf
  · exact h g fl hg

theorem SameFiles.handle (h : SameFiles s t) : t.handle = s.handle := by
  unfold Fs.handle
  rw [h.freeMapFile, h.fileSector, h.files]

namespace Rel

theorem names_none (h : Rel nodes s a) : a.names name = none ↔ ∀ k, ¬ Bound nodes name k := by
  rw [Option.eq_none_iff_forall_ne_some]
  exact forall_congr' fun k => not_congr (h.names name k)

theorem isHandle (h : Rel nodes s a) (hf : s.IsHandle file) :
    ∃ f k nd, s.files.get file = some f ∧ s.fileSector file = some k ∧ 2 ≤ k ∧ nodes k = some nd ∧
      a.bytes k = nd.content ∧ a.handles file = some (k, f.pos) := by
  obtain ⟨hsome, hne⟩ := hf
  obtain ⟨f, hf⟩ := Option.isSome_iff_exists.1 hsome
  obtain ⟨n, hn⟩ := h.inv.opened.file_inode hf
  have hk : s.fileSector file = some n.sector := by
    rw [Fs.fileSector_eq, hf]
    change (s.inodes.get f.inode).map _ = _
    rw [hn]
    rfl
  obtain ⟨-, nd, hnd, -⟩ := h.inv.handle hf hk
  refine ⟨f, n.sector, nd, hf, hk, h.handle_le _ _ hne hk, hnd, h.bytes _ _ (h.handle_le _ _ hne hk) hnd, ?_⟩
  rw [h.handles]
  unfold Fs.handle
  rw [if_neg hne, hk, hf]
  rfl

theorem unused (h : Rel nodes s a) (hk : nodes k = none) : a.Unused k := by
  constructor
  · intro name hname
    obtain ⟨n, hn⟩ := h.inv.kept_node (Inv.bound_kept ((h.names name k).1 hname))
    rw [hk] at hn
    cases hn
  · intro g pos hg
    rw [h.handles] at hg
    obtain ⟨f, -, hsec, hf, -⟩ := handle_eq_some hg
    obtain ⟨-, nd, hnd, -⟩ := h.inv.handle hf hsec
    rw [hk] at hnd
    cases hnd

theorem same (h : Rel nodes s a) (hinv : Inv t nodes' []) (hsame : SameFiles s t) (hone : nodes' 1 = nodes 1)
    (hsub : Subset nodes' nodes) : Rel nodes' t a where
  inv := hinv
  allowed := hsame.allowed h.allowed
  names name k := (h.names name k).trans (bound_congr hone name k).symm
  bytes k n hk hn := h.bytes k n hk (hsub k n hk hn)
  handles := h.handles.trans hsame.handle.symm
  handle_le file k := by
    rw [hsame.freeMapFile, hsame.fileSector]
    exact h.handle_le file k

theorem moved {f : File} {pos : ℕ} (h : Rel nodes s a) (hf : s.files.get file = some f)
    (hk : s.fileSector file = some k) (hne : s.freeMapFile ≠ some file) (hmap : t.freeMapFile = s.freeMapFile)
    (hsec : t.fileSector = s.fileSector) (hfiles : t.files = s.files.set file { f with pos }) :
    (a.putHandle file (some (k, pos))).handles = t.handle := by
  funext g
  unfold Store.putHandle Fs.handle
  dsimp only
  rw [update_apply, h.handles, hmap, hsec, hfiles, Heap.get_set hf]
  unfold Fs.handle
  split_ifs with h1 h2 h3
  · exact absurd (h1 ▸ h2) hne
  · rw [h1, hk]
    rfl
  · rfl
  · rfl

theorem move {f : File} {pos : ℕ} (h : Rel nodes s a) (hf : s.files.get file = some f)
    (hk : s.fileSector file = some k) (hne : s.freeMapFile ≠ some file) :
    Rel nodes (s.withFiles (s.files.set file { f with pos })) (a.putHandle file (some (k, pos))) where
  inv := h.inv.move hf
  allowed := h.allowed.move hf rfl
  names := h.names
  bytes := h.bytes
  handles := h.moved hf hk hne rfl (fileSector_set_pos hf) rfl
  handle_le g l := by
    rw [fileSector_set_pos hf]
    exact h.handle_le g l

/-! ## Each call is a step of the store -/

section

variable (h : Rel nodes s a)
include h

theorem create (name : Name) {size : ℤ} (h0 : 0 ≤ size) (h31 : size < 2 ^ 31) :
    ∃ b t c, (filesysCreate name size).run s = .ok (b, t) ∧ a.Step (.create name size, .bool b) c ∧ Sim t c := by
  obtain ⟨len, rfl⟩ := Int.eq_ofNat_of_zero_le h0
  rcases h.inv.create name len (by omega) with
    ⟨t, nodes', k, start, hrun, hinv, hsame, hne, hle, hunbound, hbound, hk2, hnone, hnew, hsub⟩ |
    ⟨t, nodes', hrun, hinv, hsame, hone, hsub⟩
  · refine ⟨true, t, _, hrun, .create hne hle (h.names_none.2 hunbound) (h.unused hnone), nodes', hinv,
      hsame.allowed h.allowed, fun name' k' => ?_,
      fun j m hj hm => ?_, h.handles.trans hsame.handle.symm, fun f j => ?_⟩
    · rw [hbound, ← h.names]
      unfold Store.putBytes Store.bind
      dsimp only
      rw [update_apply]
      split_ifs with hname
      · rw [hname, h.names_none.2 hunbound]
        simp [eq_comm]
      · simp [hname]
    · unfold Store.putBytes Store.bind
      dsimp only
      rw [update_apply]
      split_ifs with hjk
      · rw [hjk, hnew] at hm
        rw [← Option.some.inj hm, Int.toNat_natCast]
      · exact h.bytes j m hj (hsub j m hj hjk hm)
    · rw [hsame.freeMapFile, hsame.fileSector]
      exact h.handle_le f j
  · exact ⟨false, t, a, hrun, .createFail, nodes', h.same hinv hsame hone hsub⟩

theorem open_ (name : Name) :
    ∃ r t c, (filesysOpen name).run s = .ok (r, t) ∧ a.Step (.open_ name, .file r) c ∧ Sim t c := by
  rcases h.inv.open name with
    ⟨t, nodes', k, hrun, hinv, hbound, hone, hsub, hmap, hnext, hsec, hfiles, i, hnew⟩ |
    ⟨hno, t, nodes', hrun, hinv, hsame, hone, hsub⟩
  · have hfresh : a.handles s.files.next = none := by
      rw [h.handles]
      unfold Fs.handle
      rw [if_neg hnext, s.files.get_next _ le_rfl]
      cases s.fileSector s.files.next <;> rfl
    have hallowed : t.Allowed := fun g fl hg => by
      rcases eq_or_ne g s.files.next with rfl | hne
      · rw [hnew] at hg
        rw [← Option.some.inj hg]
      · exact h.allowed g fl (by rw [← hfiles g hne, hg])
    refine ⟨_, t, _, hrun, .open_ ((h.names name k).2 hbound) hfresh, nodes', hinv, hallowed, fun name' k' => ?_,
      fun j m hj hm => h.bytes j m hj (hsub j m hj hm), ?_, fun f j hf => ?_⟩
    · exact (h.names name' k').trans (bound_congr hone name' k').symm
    · funext g
      unfold Store.putHandle Fs.handle
      dsimp only
      rw [update_apply, h.handles, hmap, hsec]
      unfold Fs.handle
      rcases eq_or_ne g s.files.next with rfl | hg
      · rw [if_pos rfl, if_neg hnext, if_pos rfl, hnew]
        rfl
      · rw [if_neg hg, if_neg hg, hfiles g hg]
    · rw [hmap] at hf
      rw [hsec]
      split_ifs with hg
      · intro hj
        obtain ⟨root, hroot, hdir⟩ := h.inv.root
        obtain ⟨l, hl, hnm, rfl⟩ := (bound_iff hroot name k).1 hbound
        rw [← Option.some.inj hj]
        exact (hdir.node hl (hasName_iff.1 hnm).1).1
      · exact h.handle_le f j hf
  · exact ⟨none, t, a, hrun, .openFail (h.names_none.2 hno), nodes', h.same hinv hsame hone hsub⟩

theorem remove (name : Name) :
    ∃ b t c, (filesysRemove name).run s = .ok (b, t) ∧ a.Step (.remove name, .bool b) c ∧ Sim t c := by
  rcases h.inv.remove name with
    ⟨t, nodes', hrun, hinv, hsame, ⟨k, hk⟩, hbound, hsub⟩ | ⟨hno, t, nodes', hrun, hinv, hsame, hone, hsub⟩
  · refine ⟨true, t, _, hrun, .remove ((h.names name k).2 hk), nodes', hinv, hsame.allowed h.allowed, fun name' k' => ?_,
      fun j m hj hm => h.bytes j m hj (hsub j m hj hm), h.handles.trans hsame.handle.symm, fun f j => ?_⟩
    · rw [hbound, ← h.names]
      unfold Store.bind
      dsimp only
      rw [update_apply]
      split_ifs with hname
      · simp [hname]
      · simp [hname]
    · rw [hsame.freeMapFile, hsame.fileSector]
      exact h.handle_le f j
  · exact ⟨false, t, a, hrun, .removeFail (h.names_none.2 hno), nodes', h.same hinv hsame hone hsub⟩

theorem read (hf : s.IsHandle file) (size : ℤ) :
    ∃ l t c, (fileRead file size).run s = .ok (l, t) ∧ a.Step (.read file size, .bytes l) c ∧ Sim t c := by
  obtain ⟨f, k, nd, hget, hk, hk2, hnd, hbytes, hhandle⟩ := h.isHandle hf
  have hstep : a.Step (.read file size, _) _ := .read hhandle
  rw [hbytes] at hstep
  exact ⟨_, _, _, h.inv.read hget hk hnd size, hstep, nodes, h.move hget hk hf.2⟩

theorem write (hf : s.IsHandle file) (buffer : ℕ → UInt8) (size : ℤ) :
    ∃ n t c, (fileWrite file buffer size).run s = .ok (n, t) ∧ a.Step (.write file buffer size, .count n) c ∧
      Sim t c := by
  obtain ⟨f, k, nd, hget, hk, hk2, hnd, hbytes, hhandle⟩ := h.isHandle hf
  have hstep : a.Step (.write file buffer size, _) _ := .write hhandle
  rw [hbytes] at hstep
  obtain ⟨t, hrun, hinv, hmap, hsec, hfiles⟩ := h.inv.writeFile hget hk hk2 hnd (h.allowed.fileDenials _) buffer size
  refine ⟨_, t, _, hrun, hstep, _, hinv, h.allowed.move hget hfiles, fun name' k' => ?_, fun j m hj hm => ?_, ?_, fun g l => ?_⟩
  · exact (h.names name' k').trans (bound_congr (update_of_ne (by omega) ..) name' k').symm
  · unfold Store.putHandle Store.putBytes
    dsimp only
    rw [update_apply] at hm ⊢
    split_ifs at hm ⊢
    · rw [← Option.some.inj hm]
    · exact h.bytes j m hj hm
  · exact h.moved hget hk hf.2 hmap hsec hfiles
  · rw [hmap, hsec]
    exact h.handle_le g l

theorem seek (hf : s.IsHandle file) {newPos : ℤ} (hpos : 0 ≤ newPos) :
    ∃ t c, (fileSeek file newPos).run s = .ok ((), t) ∧ a.Step (.seek file newPos, .done) c ∧ Sim t c := by
  obtain ⟨f, k, nd, hget, hk, -, -, -, hhandle⟩ := h.isHandle hf
  refine ⟨_, _, ?_, .seek hhandle, nodes, h.move hget hk hf.2⟩
  unfold fileSeek
  rw [run_bind_ok (getFile_run hget), if_neg (by omega)]
  rfl

theorem close (hf : s.IsHandle file) :
    ∃ t c, (fileClose file).run s = .ok ((), t) ∧ a.Step (.close file, .done) c ∧ Sim t c := by
  obtain ⟨f, k, nd, hget, hk, -, -, -, hhandle⟩ := h.isHandle hf
  obtain ⟨t, nodes', hrun, hinv, hone, hsub, hmap, hsec, hfiles⟩ := h.inv.close hget hf.2
  have hallowed : t.Allowed := fun g fl hg => by
    rw [hfiles] at hg
    split_ifs at hg
    exact h.allowed g fl hg
  refine ⟨t, _, hrun, .close hhandle, nodes', hinv, hallowed, fun name' k' => ?_,
    fun j m hj hm => h.bytes j m hj (hsub j m hj hm), ?_, fun g l hg => ?_⟩
  · exact (h.names name' k').trans (bound_congr hone name' k').symm
  · funext g
    unfold Store.putHandle Fs.handle
    dsimp only
    rw [update_apply, h.handles, hmap, hsec, hfiles]
    unfold Fs.handle
    split_ifs with h1 h2 h3
    · rfl
    · rfl
    · rfl
    · rfl
  · rw [hmap] at hg
    rw [hsec]
    split_ifs
    · exact fun hl => absurd hl (by simp)
    · exact h.handle_le g l hg

end

end Rel

/-- **Every call completes and is a step of the store.** -/
theorem Sim.call (h : Sim s a) (op : Op) (he : op.Enabled s) (hsize : op.SizeOk) :
    ∃ r t b, op.exec.run s = .ok (r, t) ∧ a.Step (op, r) b ∧ Sim t b := by
  obtain ⟨nodes, h⟩ := h
  cases op with
  | create name size =>
    obtain ⟨r, t, b, hrun, hstep, hsim⟩ := h.create name hsize he
    exact ⟨_, t, b, (run_bind_ok hrun).trans rfl, hstep, hsim⟩
  | open_ name =>
    obtain ⟨r, t, b, hrun, hstep, hsim⟩ := h.open_ name
    exact ⟨_, t, b, (run_bind_ok hrun).trans rfl, hstep, hsim⟩
  | read file size =>
    obtain ⟨r, t, b, hrun, hstep, hsim⟩ := h.read he size
    exact ⟨_, t, b, (run_bind_ok hrun).trans rfl, hstep, hsim⟩
  | write file buffer size =>
    obtain ⟨r, t, b, hrun, hstep, hsim⟩ := h.write he buffer size
    exact ⟨_, t, b, (run_bind_ok hrun).trans rfl, hstep, hsim⟩
  | seek file newPos =>
    obtain ⟨t, b, hrun, hstep, hsim⟩ := h.seek he.1 he.2
    exact ⟨_, t, b, (run_bind_ok hrun).trans rfl, hstep, hsim⟩
  | close file =>
    obtain ⟨t, b, hrun, hstep, hsim⟩ := h.close he
    exact ⟨_, t, b, (run_bind_ok hrun).trans rfl, hstep, hsim⟩
  | remove name =>
    obtain ⟨r, t, b, hrun, hstep, hsim⟩ := h.remove name
    exact ⟨_, t, b, (run_bind_ok hrun).trans rfl, hstep, hsim⟩

theorem Sim.create_negative {r : Result} (h : Sim s a) (hneg : size < 0)
    (hrun : (Op.create name size).exec.run s = .ok (r, t)) : a.Step (.create name size, r) a ∧ Sim t a := by
  obtain ⟨nodes, h⟩ := h
  obtain ⟨b, t', hcreate, hr⟩ := ok_of_run_bind hrun
  cases hr
  obtain ⟨nodes', rfl, hinv, hsame, hone, hsub⟩ := h.inv.create_negative hneg hcreate
  exact ⟨.createFail, nodes', h.same hinv hsame hone hsub⟩

theorem sim_simulates : Simulates Fs.Step Store.Step Sim := by
  rintro s a ⟨op, r⟩ t hsim ⟨he, hrun⟩
  by_cases hsize : op.SizeOk
  · obtain ⟨r', t', b, hrun', hb, hsim'⟩ := hsim.call op he hsize
    obtain ⟨rfl, rfl⟩ := ok_inj (hrun'.symm.trans hrun)
    exact ⟨b, hb, hsim'⟩
  · cases op with
    | create name size => exact ⟨a, hsim.create_negative (by unfold Op.SizeOk at hsize; omega) hrun⟩
    | _ => exact absurd trivial hsize

end Pintos
