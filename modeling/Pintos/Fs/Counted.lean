/-
  The counts of open inodes (filesys/inode.c and file.c).

  An inode is in memory once, however often it is opened; `open_cnt` is the number of references to it, and
  `deny_write_cnt` the number of files that deny writes to it.
-/
import Pintos.Fs.Filesys

namespace Pintos

open Lib Prog List

/-- The sector of the inode that a file is open on. -/
def Fs.fileSector (s : Fs) (file : ℕ) : Option ℕ :=
  (s.files.get file).bind fun f => (s.inodes.get f.inode).map (·.sector)

/-- The references to the inode `i` that files hold. -/
def Fs.fileRefs (s : Fs) (i : ℕ) : ℕ := s.files.count fun f => f.inode == i

/-- The files open on the inode `i` that deny writes to it. -/
def Fs.fileDenials (s : Fs) (i : ℕ) : ℕ := s.files.count fun f => f.inode == i && f.denyWrite

/-- The file `f` begins or ceases to deny writes to its inode `n`, whose count is then `cnt`. -/
def Fs.setDeny (s : Fs) (file : ℕ) (f : File) (n : Inode) (denyWrite : Bool) (cnt : ℤ) : Fs :=
  (s.withFiles (s.files.set file { f with denyWrite })).withInodes s.openInodes
    (s.inodes.set f.inode { n with denyWriteCnt := cnt })

/-- The inodes in memory are those that are open, each sector has one, and their counts are right;
    files and `refs` refer to inodes in memory. -/
structure Counted (s : Fs) (refs : List ℕ) : Prop where
  nodup : s.openInodes.Nodup
  mem_iff : ∀ i, i ∈ s.openInodes ↔ ∃ n, s.inodes.get i = some n
  unique : ∀ {i j n m}, s.inodes.get i = some n → s.inodes.get j = some m → n.sector = m.sector → i = j
  openCnt_eq : ∀ {i n}, s.inodes.get i = some n → n.openCnt = (s.fileRefs i + refs.count i : ℕ)
  openCnt_pos : ∀ {i n}, s.inodes.get i = some n → 0 < n.openCnt
  denyWriteCnt_eq : ∀ {i n}, s.inodes.get i = some n → n.denyWriteCnt = s.fileDenials i
  file_inode : ∀ {h f}, s.files.get h = some f → ∃ n, s.inodes.get f.inode = some n
  ref_inode : ∀ {i}, i ∈ refs → ∃ n, s.inodes.get i = some n

section
variable {s : Fs} {refs refs' : List ℕ} {i : ℕ} {n : Inode}

theorem fileDenials_le (s : Fs) (i : ℕ) : s.fileDenials i ≤ s.fileRefs i :=
  Heap.count_le fun _ hf => (Bool.and_eq_true_iff.1 hf).1

variable {f : File}

theorem fileRefs_pos {k : ℕ} (hf : s.files.get k = some f) : 0 < s.fileRefs f.inode :=
  Heap.count_pos_iff.2 ⟨k, f, hf, beq_self_eq_true _⟩

theorem fileDenials_pos {k : ℕ} (hf : s.files.get k = some f) (hw : f.denyWrite = true) :
    0 < s.fileDenials f.inode :=
  Heap.count_pos_iff.2 ⟨k, f, hf, by rw [hw, beq_self_eq_true]; rfl⟩

theorem openLoop_run (sector : ℕ) (hl : ∀ i ∈ s.openInodes, ∃ n, s.inodes.get i = some n) : ∀ (l : List ℕ), l ⊆ s.openInodes →
    (∃ i n, (openLoop sector l).run s = .ok (some i, s) ∧ i ∈ l ∧ s.inodes.get i = some n ∧ n.sector = sector) ∨
    ((openLoop sector l).run s = .ok (none, s) ∧ ∀ i ∈ l, ∀ n, s.inodes.get i = some n → n.sector ≠ sector)
  | [], _ => .inr ⟨rfl, fun i hi => absurd hi not_mem_nil⟩
  | i :: l, hsub => by
    obtain ⟨n, hn⟩ := hl i (hsub mem_cons_self)
    rw [openLoop, run_bind_ok (getInode_run hn)]
    by_cases hsec : n.sector = sector
    · rw [if_pos hsec]
      exact .inl ⟨i, n, rfl, mem_cons_self, hn, hsec⟩
    · rw [if_neg hsec]
      rcases openLoop_run sector hl l (fun j hj => hsub (mem_cons_of_mem _ hj)) with
        ⟨j, m, hrun, hj, hm, hsec'⟩ | ⟨hrun, hno⟩
      · exact .inl ⟨j, m, hrun, mem_cons_of_mem _ hj, hm, hsec'⟩
      · refine .inr ⟨hrun, fun j hj m hm => ?_⟩
        rcases mem_cons.1 hj with rfl | hj
        · rw [hn, Option.some.injEq] at hm
          exact hm ▸ hsec
        · exact hno j hj m hm

theorem inodeReopen_run (hn : s.inodes.get i = some n) : (inodeReopen (some i)).run s =
    .ok (some i, s.withInodes s.openInodes (s.inodes.set i { n with openCnt := n.openCnt + 1 })) := by
  rw [inodeReopen, run_bind_ok (getInode_run hn), run_bind_ok (setInode_run _ _ _)]
  rfl

theorem inodeRemove_run (hn : s.inodes.get i = some n) :
    (inodeRemove i).run s = .ok ((), s.withInodes s.openInodes (s.inodes.set i { n with removed := true })) := by
  unfold inodeRemove
  rw [run_bind_ok (getInode_run hn)]
  rfl

theorem fileSector_set (o : List ℕ) (n' : Inode) (hn : s.inodes.get i = some n) (hsec : n'.sector = n.sector) :
    (s.withInodes o (s.inodes.set i n')).fileSector = s.fileSector := by
  funext h
  change (s.files.get h).bind (fun f => ((s.inodes.set i n').get f.inode).map (·.sector)) = _
  congr 1
  funext f
  rw [Heap.get_set hn]
  split_ifs with hf
  · rw [hf, hn, Option.map_some, Option.map_some, hsec]
  · rfl

/-- The sector of an open inode. -/
def Fs.sectorAt (s : Fs) (i : ℕ) : Option ℕ := (s.inodes.get i).map (·.sector)

theorem Fs.fileSector_eq (s : Fs) (h : ℕ) : s.fileSector h = (s.files.get h).bind fun f => s.sectorAt f.inode := rfl

theorem fileSector_withInodes {o : List ℕ} {h' : Heap Inode}
    (hsec : ∀ f k, s.files.get k = some f → (s.withInodes o h').sectorAt f.inode = s.sectorAt f.inode) :
    (s.withInodes o h').fileSector = s.fileSector := by
  funext k
  rw [Fs.fileSector_eq, Fs.fileSector_eq]
  change (s.files.get k).bind _ = _
  cases hf : s.files.get k with
  | none => rfl
  | some f => exact hsec f k hf

variable {file : ℕ}

theorem fileSector_setDeny {b : Bool} {c : ℤ} (hf : s.files.get file = some f)
    (hn : s.inodes.get f.inode = some n) : (s.setDeny file f n b c).fileSector = s.fileSector := by
  refine (fileSector_set (s := s.withFiles (s.files.set file { f with denyWrite := b })) s.openInodes { n with denyWriteCnt := c } hn rfl).trans ?_
  funext g
  rw [Fs.fileSector_eq, Fs.fileSector_eq]
  change ((s.files.set file { f with denyWrite := b }).get g).bind _ = _
  rw [Heap.get_set hf]
  split_ifs with hg
  · rw [hg, hf]
    rfl
  · rfl

/-- The inodes in memory after a reference to `i` is closed. -/
def Fs.closeInode (s : Fs) (i : ℕ) (n : Inode) : Fs :=
  if n.openCnt = 1 then
    s.withInodes (s.openInodes.erase i) ((s.inodes.set i { n with openCnt := n.openCnt - 1 }).free i)
  else s.withInodes s.openInodes (s.inodes.set i { n with openCnt := n.openCnt - 1 })

theorem get_free_set (hn : s.inodes.get i = some n) (n' : Inode) (j : ℕ) :
    ((s.inodes.set i n').free i).get j = if j = i then none else s.inodes.get j := by
  rw [Heap.get_free, Heap.get_set hn]
  split_ifs <;> rfl

theorem sectorAt_closeInode (hn : s.inodes.get i = some n) {j : ℕ} (hj : j ≠ i ∨ n.openCnt ≠ 1) :
    (s.closeInode i n).sectorAt j = s.sectorAt j := by
  unfold Fs.closeInode Fs.sectorAt
  split_ifs with hlast
  · unfold Fs.withInodes
    rw [get_free_set hn, if_neg (hj.resolve_right (not_not.2 hlast))]
  · unfold Fs.withInodes
    rw [Heap.get_set hn]
    split_ifs with hji
    · rw [hji, hn]; rfl
    · rfl

/-- **Closing** drops a reference; for the last one to a removed inode see
    `inodeClose_run_removed`. -/
theorem inodeClose_run (hn : s.inodes.get i = some n) (hkeep : n.removed = false ∨ n.openCnt ≠ 1) :
    (inodeClose (some i)).run s = .ok ((), s.closeInode i n) := by
  rw [inodeClose, run_bind_ok (getInode_run hn), run_bind_ok (setInode_run _ _ _)]
  unfold Fs.closeInode
  by_cases hlast : n.openCnt = 1
  · have hrem : n.removed = false := hkeep.resolve_right (not_not.2 hlast)
    rw [if_pos (by omega), run_bind_modify, hrem, if_neg (by decide), if_pos hlast]
    rfl
  · rw [if_neg (by omega), if_neg hlast]
    rfl

theorem setFile_run (s : Fs) (file : ℕ) (f : File) :
    (setFile file f).run s = .ok ((), s.withFiles (s.files.set file f)) := rfl

theorem fileDenyWrite_run (hf : s.files.get file = some f)
    (hn : s.inodes.get f.inode = some n) (hw : f.denyWrite = false) (hle : n.denyWriteCnt + 1 ≤ n.openCnt) :
    (fileDenyWrite file).run s = .ok ((), s.setDeny file f n true (n.denyWriteCnt + 1)) := by
  unfold fileDenyWrite
  rw [run_bind_ok (getFile_run hf), hw, if_neg Bool.false_ne_true, run_bind_ok (setFile_run _ _ _)]
  unfold inodeDenyWrite
  rw [run_bind_ok (getInode_run (s := s.withFiles (s.files.set file { f with denyWrite := true })) hn), if_pos hle]
  rfl

theorem fileAllowWrite_run_of_not (hf : s.files.get file = some f) (hw : f.denyWrite = false) :
    (fileAllowWrite file).run s = .ok ((), s) := by
  unfold fileAllowWrite
  rw [run_bind_ok (getFile_run hf), hw]
  rfl

theorem fileAllowWrite_run (hf : s.files.get file = some f)
    (hn : s.inodes.get f.inode = some n) (hw : f.denyWrite = true) (hpos : 0 < n.denyWriteCnt)
    (hle : n.denyWriteCnt ≤ n.openCnt) :
    (fileAllowWrite file).run s = .ok ((), s.setDeny file f n false (n.denyWriteCnt - 1)) := by
  unfold fileAllowWrite
  rw [run_bind_ok (getFile_run hf), hw, if_pos rfl, run_bind_ok (setFile_run _ _ _)]
  unfold inodeAllowWrite
  rw [run_bind_ok (getInode_run (s := s.withFiles (s.files.set file { f with denyWrite := false })) hn),
    if_pos ⟨hpos, hle⟩]
  rfl

namespace Counted

theorem of_empty (ho : s.openInodes = []) (hi : ∀ i, s.inodes.get i = none) (hf : ∀ f, s.files.get f = none) :
    Counted s [] := by
  refine ⟨?_, fun i => ?_, fun h => ?_, fun h => ?_, fun h => ?_, fun h => ?_, fun h => ?_, fun h => ?_⟩
  · rw [ho]
    exact nodup_nil
  · rw [ho, hi]
    simp
  · rw [hi] at h
    cases h
  · rw [hi] at h
    cases h
  · rw [hi] at h
    cases h
  · rw [hi] at h
    cases h
  · rw [hf] at h
    cases h
  · cases h

theorem congr {s' : Fs} (h : Counted s refs) (ho : s'.openInodes = s.openInodes) (hi : s'.inodes = s.inodes)
    (hf : s'.files = s.files) : Counted s' refs where
  nodup := ho ▸ h.nodup
  mem_iff := by rw [ho, hi]; exact h.mem_iff
  unique := by rw [hi]; exact h.unique
  openCnt_eq := by unfold Fs.fileRefs; rw [hi, hf]; exact h.openCnt_eq
  openCnt_pos := by rw [hi]; exact h.openCnt_pos
  denyWriteCnt_eq := by unfold Fs.fileDenials; rw [hi, hf]; exact h.denyWriteCnt_eq
  file_inode := by rw [hi, hf]; exact h.file_inode
  ref_inode := by rw [hi]; exact h.ref_inode

theorem perm (h : Counted s refs) (hp : refs.Perm refs') : Counted s refs' :=
  { h with
    openCnt_eq := fun hn => by rw [← hp.count_eq]; exact h.openCnt_eq hn
    ref_inode := fun hi => h.ref_inode (hp.mem_iff.2 hi) }

theorem denyWriteCnt_le (h : Counted s refs) (hn : s.inodes.get i = some n) : n.denyWriteCnt ≤ n.openCnt := by
  rw [h.denyWriteCnt_eq hn, h.openCnt_eq hn]
  have := fileDenials_le s i
  omega

variable {n' : Inode}

theorem get_set_cases {m : Inode} {j : ℕ} (hn : s.inodes.get i = some n) (hm : (s.inodes.set i n').get j = some m) :
    j = i ∧ m = n' ∨ j ≠ i ∧ s.inodes.get j = some m := by
  rw [Heap.get_set hn] at hm
  split_ifs at hm with hj
  · exact .inl ⟨hj, (Option.some.inj hm).symm⟩
  · exact .inr ⟨hj, hm⟩

theorem exists_get_set (hn : s.inodes.get i = some n) (j : ℕ) :
    (∃ m, s.inodes.get j = some m) ↔ ∃ m, (s.inodes.set i n').get j = some m := by
  rw [Heap.get_set hn]
  split_ifs with hj
  · rw [hj, hn]
    exact ⟨fun _ => ⟨_, rfl⟩, fun _ => ⟨_, rfl⟩⟩
  · exact Iff.rfl

theorem setWith (files : Heap File) (h : Counted s refs) (hn : s.inodes.get i = some n)
    (hsec : n'.sector = n.sector) (hfile : ∀ {k f}, files.get k = some f → ∃ m, s.inodes.get f.inode = some m)
    (hopen : n'.openCnt = ((s.withFiles files).fileRefs i + refs'.count i : ℕ)) (hpos : 0 < n'.openCnt)
    (hdeny : n'.denyWriteCnt = (s.withFiles files).fileDenials i)
    (hother : ∀ {j}, j ≠ i → (s.withFiles files).fileRefs j = s.fileRefs j ∧
      (s.withFiles files).fileDenials j = s.fileDenials j ∧ refs'.count j = refs.count j) :
    Counted ((s.withFiles files).withInodes s.openInodes (s.inodes.set i n')) refs' where
  nodup := h.nodup
  mem_iff j := (h.mem_iff j).trans (exists_get_set hn j)
  unique {j k m p} hm hp hmp := by
    rcases get_set_cases hn hm with ⟨rfl, rfl⟩ | ⟨-, hm'⟩ <;> rcases get_set_cases hn hp with ⟨rfl, rfl⟩ | ⟨-, hp'⟩
    · rfl
    · exact h.unique hn hp' (by rw [← hsec, hmp])
    · exact h.unique hm' hn (by rw [hmp, hsec])
    · exact h.unique hm' hp' hmp
  openCnt_eq {j m} hm := by
    rcases get_set_cases hn hm with ⟨rfl, rfl⟩ | ⟨hj, hm⟩
    · exact hopen
    · change m.openCnt = ((s.withFiles files).fileRefs j + refs'.count j : ℕ)
      rw [(hother hj).1, (hother hj).2.2]
      exact h.openCnt_eq hm
  openCnt_pos {j m} hm := by
    rcases get_set_cases hn hm with ⟨-, rfl⟩ | ⟨-, hm⟩
    · exact hpos
    · exact h.openCnt_pos hm
  denyWriteCnt_eq {j m} hm := by
    rcases get_set_cases hn hm with ⟨rfl, rfl⟩ | ⟨hj, hm⟩
    · exact hdeny
    · change m.denyWriteCnt = (s.withFiles files).fileDenials j
      rw [(hother hj).2.1]
      exact h.denyWriteCnt_eq hm
  file_inode hf := (exists_get_set hn _).1 (hfile hf)
  ref_inode {j} hj := by
    rcases eq_or_ne j i with rfl | hne
    · exact (exists_get_set hn _).1 ⟨n, hn⟩
    · have hmem : j ∈ refs := count_pos_iff.1 (by rw [← (hother hne).2.2]; exact count_pos_iff.2 hj)
      exact (exists_get_set hn _).1 (h.ref_inode hmem)

section

variable (h : Counted s refs) (hn : s.inodes.get i = some n)
include h hn

theorem set (hsec : n'.sector = n.sector)
    (hopen : n'.openCnt = (s.fileRefs i + refs'.count i : ℕ)) (hpos : 0 < n'.openCnt)
    (hdeny : n'.denyWriteCnt = n.denyWriteCnt) (hcount : ∀ {j}, j ≠ i → refs'.count j = refs.count j) :
    Counted (s.withInodes s.openInodes (s.inodes.set i n')) refs' :=
  h.setWith s.files hn hsec h.file_inode hopen hpos (hdeny.trans (h.denyWriteCnt_eq hn)) fun hj =>
    ⟨rfl, rfl, hcount hj⟩

theorem reopen :
    Counted (s.withInodes s.openInodes (s.inodes.set i { n with openCnt := n.openCnt + 1 })) (i :: refs) := by
  have hcnt := h.openCnt_eq hn
  refine h.set hn rfl ?_ ?_ rfl fun hj => count_cons_of_ne (Ne.symm hj)
  · change n.openCnt + 1 = _
    rw [count_cons_self]
    omega
  · change 0 < n.openCnt + 1
    omega

theorem remove :
    Counted (s.withInodes s.openInodes (s.inodes.set i { n with removed := true })) refs :=
  h.set hn rfl (h.openCnt_eq hn :) (h.openCnt_pos hn :) rfl fun _ => rfl

end

theorem free (h : Counted s (i :: refs)) (hn : s.inodes.get i = some n) (hcnt : n.openCnt = 1) {h' : Heap Inode}
    (hget : ∀ j, h'.get j = if j = i then none else s.inodes.get j) :
    Counted (s.withInodes (s.openInodes.erase i) h') refs := by
  have hzero : s.fileRefs i = 0 ∧ refs.count i = 0 := by
    have := h.openCnt_eq hn
    rw [hcnt, count_cons_self] at this
    omega
  have hsome : ∀ {j m}, h'.get j = some m → j ≠ i ∧ s.inodes.get j = some m := by
    intro j m hm
    rw [hget] at hm
    split_ifs at hm with hj
    exact ⟨hj, hm⟩
  have hstays : ∀ {j}, j ≠ i → (∃ m, s.inodes.get j = some m) → ∃ m, h'.get j = some m := by
    rintro j hj ⟨m, hm⟩
    exact ⟨m, by rw [hget, if_neg hj, hm]⟩
  refine ⟨h.nodup.erase i, fun j => ?_, fun hm hp hmp => h.unique (hsome hm).2 (hsome hp).2 hmp, fun {j m} hm => ?_,
    fun hm => h.openCnt_pos (hsome hm).2, fun hm => h.denyWriteCnt_eq (hsome hm).2, fun {k f} hf => ?_, fun {j} hj => ?_⟩
  · change j ∈ s.openInodes.erase i ↔ ∃ m, h'.get j = some m
    rw [h.nodup.mem_erase_iff, h.mem_iff, hget]
    split_ifs with hj
    · simp [hj]
    · simp [hj]
  · obtain ⟨hj, hm⟩ := hsome hm
    have := h.openCnt_eq hm
    rw [count_cons_of_ne (Ne.symm hj)] at this
    exact this
  · refine hstays (fun hfi => ?_) (h.file_inode hf)
    -- no file is open on `i`
    have := fileRefs_pos (s := s) hf
    rw [hfi] at this
    omega
  · refine hstays ?_ (h.ref_inode (mem_cons_of_mem _ hj))
    rintro rfl
    have := count_pos_iff.2 hj
    omega

theorem alloc (h : Counted s refs) (hnew : ∀ {j m}, s.inodes.get j = some m → m.sector ≠ n.sector)
    (hcnt : n.openCnt = 1) (hdeny : n.denyWriteCnt = 0) :
    Counted (s.withInodes (s.inodes.next :: s.openInodes) (s.inodes.alloc n)) (s.inodes.next :: refs) := by
  have hfresh : s.inodes.get s.inodes.next = none := s.inodes.get_next _ le_rfl
  have hget : ∀ {j m}, (s.inodes.alloc n).get j = some m →
      j = s.inodes.next ∧ m = n ∨ j ≠ s.inodes.next ∧ s.inodes.get j = some m := by
    intro j m hm
    rcases eq_or_ne j s.inodes.next with rfl | hj
    · rw [Heap.get_alloc_self] at hm
      exact .inl ⟨rfl, (Option.some.inj hm).symm⟩
    · rw [Heap.get_alloc_of_ne hj] at hm
      exact .inr ⟨hj, hm⟩
  have hold : ∀ {j}, (∃ m, s.inodes.get j = some m) → ∃ m, (s.inodes.alloc n).get j = some m := by
    rintro j ⟨m, hm⟩
    exact ⟨m, by rw [Heap.get_alloc_of_ne (Heap.lt_next hm).ne, hm]⟩
  have hzero : s.fileRefs s.inodes.next = 0 ∧ refs.count s.inodes.next = 0 := by
    constructor
    · by_contra hne
      obtain ⟨k, f, hf, hfi⟩ := Heap.count_pos_iff.1 (Nat.pos_of_ne_zero hne)
      obtain ⟨m, hm⟩ := h.file_inode hf
      rw [beq_iff_eq.1 hfi, hfresh] at hm
      cases hm
    · refine count_eq_zero_of_not_mem fun hmem => ?_
      obtain ⟨m, hm⟩ := h.ref_inode hmem
      rw [hfresh] at hm
      cases hm
  refine ⟨nodup_cons.2 ⟨fun hmem => ?_, h.nodup⟩, fun j => ⟨fun hj => ?_, ?_⟩, ?_, ?_, ?_, ?_, ?_, ?_⟩
  · obtain ⟨m, hm⟩ := (h.mem_iff _).1 hmem
    rw [hfresh] at hm
    cases hm
  · rcases mem_cons.1 hj with rfl | hj
    · exact ⟨n, Heap.get_alloc_self⟩
    · exact hold ((h.mem_iff j).1 hj)
  · rintro ⟨m, hm⟩
    rcases hget hm with ⟨rfl, -⟩ | ⟨-, hm⟩
    · exact mem_cons_self
    · exact mem_cons_of_mem _ ((h.mem_iff j).2 ⟨m, hm⟩)
  · intro j k m p hm hp hmp
    rcases hget hm with ⟨rfl, rfl⟩ | ⟨-, hm'⟩ <;> rcases hget hp with ⟨rfl, rfl⟩ | ⟨-, hp'⟩
    · rfl
    · exact absurd hmp.symm (hnew hp')
    · exact absurd hmp (hnew hm')
    · exact h.unique hm' hp' hmp
  · intro j m hm
    rcases hget hm with ⟨rfl, rfl⟩ | ⟨hj, hm⟩
    · rw [count_cons_self, hzero.2, hcnt]
      change (1 : ℤ) = (s.fileRefs s.inodes.next + _ : ℕ)
      rw [hzero.1]
      rfl
    · rw [count_cons_of_ne (Ne.symm hj)]
      exact h.openCnt_eq hm
  · intro j m hm
    rcases hget hm with ⟨-, rfl⟩ | ⟨-, hm⟩
    · rw [hcnt]
      exact Int.one_pos
    · exact h.openCnt_pos hm
  · intro j m hm
    rcases hget hm with ⟨rfl, rfl⟩ | ⟨-, hm⟩
    · have := fileDenials_le s s.inodes.next
      change m.denyWriteCnt = s.fileDenials s.inodes.next
      omega
    · exact h.denyWriteCnt_eq hm
  · exact fun hf => hold (h.file_inode hf)
  · intro j hj
    rcases mem_cons.1 hj with rfl | hj
    · exact ⟨n, Heap.get_alloc_self⟩
    · exact hold (h.ref_inode hj)

section

variable (h : Counted s (i :: refs)) (hn : s.inodes.get i = some n)
include h hn

theorem one_lt (hother : i ∈ refs ∨ ∃ k f, s.files.get k = some f ∧ f.inode = i) : 1 < n.openCnt := by
  have hcnt := h.openCnt_eq hn
  rw [count_cons_self] at hcnt
  rcases hother with hi | ⟨k, f, hf, rfl⟩
  · have := count_pos_iff.2 hi
    omega
  · have := fileRefs_pos hf
    omega

theorem sectorAt_close {j : ℕ}
    (hj : j ∈ refs ∨ ∃ k f, s.files.get k = some f ∧ f.inode = j) :
    (s.closeInode i n).sectorAt j = s.sectorAt j := by
  refine sectorAt_closeInode hn ?_
  rcases eq_or_ne j i with rfl | hji
  · exact .inr (h.one_lt hn hj).ne'
  · exact .inl hji

theorem fileSector_close :
    (s.closeInode i n).fileSector = s.fileSector := by
  have hfiles : (s.closeInode i n).files = s.files := by unfold Fs.closeInode; split_ifs <;> rfl
  funext k
  rw [Fs.fileSector_eq, Fs.fileSector_eq, hfiles]
  cases hf : s.files.get k with
  | none => rfl
  | some f => exact h.sectorAt_close hn (.inr ⟨k, f, hf, rfl⟩)

theorem close : Counted (s.closeInode i n) refs := by
  have hcnt := h.openCnt_eq hn
  rw [count_cons_self] at hcnt
  unfold Fs.closeInode
  split_ifs with hlast
  · exact h.free hn hlast (get_free_set hn _)
  · refine h.set hn rfl ?_ ?_ rfl fun hj => (count_cons_of_ne (Ne.symm hj)).symm
    · change n.openCnt - 1 = _
      omega
    · change 0 < n.openCnt - 1
      omega

end

/-! ## Files -/

theorem withFiles {files : Heap File} (h : Counted s refs)
    (hfile : ∀ {k f}, files.get k = some f → ∃ m, s.inodes.get f.inode = some m)
    (href : ∀ {i}, i ∈ refs' → ∃ m, s.inodes.get i = some m)
    (hcount : ∀ j, (s.withFiles files).fileRefs j + refs'.count j = s.fileRefs j + refs.count j)
    (hdeny : ∀ j, (s.withFiles files).fileDenials j = s.fileDenials j) : Counted (s.withFiles files) refs' where
  nodup := h.nodup
  mem_iff := h.mem_iff
  unique := h.unique
  openCnt_eq hn := by rw [hcount]; exact h.openCnt_eq hn
  openCnt_pos := h.openCnt_pos
  denyWriteCnt_eq hn := by rw [hdeny]; exact h.denyWriteCnt_eq hn
  file_inode := hfile
  ref_inode := href

theorem openFile (h : Counted s (i :: refs)) : Counted (s.withFiles (s.files.alloc ⟨i, 0, false⟩)) refs := by
  refine h.withFiles (fun {k f} hf => ?_) (fun hj => h.ref_inode (mem_cons_of_mem _ hj)) (fun j => ?_) fun j => ?_
  · rcases eq_or_ne k s.files.next with rfl | hk
    · rw [Heap.get_alloc_self, Option.some.injEq] at hf
      rw [← hf]
      exact h.ref_inode mem_cons_self
    · rw [Heap.get_alloc_of_ne hk] at hf
      exact h.file_inode hf
  · unfold Fs.fileRefs Fs.withFiles
    rw [Heap.count_alloc, count_cons]
    split_ifs <;> omega
  · unfold Fs.fileDenials Fs.withFiles
    rw [Heap.count_alloc]
    rw [Bool.and_false, if_neg Bool.false_ne_true, Nat.add_zero]

variable {k : ℕ}

theorem closeFile {f : File} (h : Counted s refs) (hf : s.files.get k = some f) (hw : f.denyWrite = false) :
    Counted (s.withFiles (s.files.free k)) (f.inode :: refs) := by
  refine h.withFiles (fun {l g} hg => ?_) (fun {j} hj => ?_) (fun j => ?_) fun j => ?_
  · rw [Heap.get_free] at hg
    split_ifs at hg
    exact h.file_inode hg
  · rcases mem_cons.1 hj with rfl | hj
    · exact h.file_inode hf
    · exact h.ref_inode hj
  · unfold Fs.fileRefs Fs.withFiles
    rw [← Heap.count_free hf, count_cons]
    dsimp only
    split_ifs <;> omega
  · unfold Fs.fileDenials Fs.withFiles
    rw [← Heap.count_free hf, hw, Bool.and_false,
      if_neg Bool.false_ne_true, Nat.add_zero]

theorem moveFile {pos : ℕ} {f : File} (h : Counted s refs) (hf : s.files.get k = some f) :
    Counted (s.withFiles (s.files.set k { f with pos })) refs := by
  refine h.withFiles (fun {l g} hg => ?_) h.ref_inode (fun j => ?_) fun j => Heap.count_set hf rfl
  · rw [Heap.get_set hf] at hg
    split_ifs at hg
    · cases hg
      exact (h.file_inode hf :)
    · exact h.file_inode hg
  · exact congrArg (· + _) (Heap.count_set hf rfl)

theorem setDeny {f : File} {b : Bool} {c : ℤ} (h : Counted s refs) (hf : s.files.get k = some f)
    (hn : s.inodes.get f.inode = some n)
    (hc : c + (if f.denyWrite then 1 else 0) = n.denyWriteCnt + (if b then 1 else 0)) :
    Counted (s.setDeny k f n b c) refs := by
  have hrefs : ∀ j, (s.withFiles (s.files.set k { f with denyWrite := b })).fileRefs j = s.fileRefs j := fun j =>
    Heap.count_set hf rfl
  refine h.setWith _ hn rfl (fun {l g} hg => ?_) ?_ (h.openCnt_pos hn :) ?_ fun {j} hj => ⟨hrefs j, ?_, rfl⟩
  · rw [Heap.get_set hf] at hg
    split_ifs at hg
    · cases hg
      exact (h.file_inode hf :)
    · exact h.file_inode hg
  · rw [hrefs]
    exact (h.openCnt_eq hn :)
  · have hcount := Heap.count_set_add (p := fun g => g.inode == f.inode && g.denyWrite) (b := { f with denyWrite := b }) hf
    rw [beq_self_eq_true, Bool.true_and, Bool.true_and] at hcount
    have hold := h.denyWriteCnt_eq hn
    change c = ((s.files.set k { f with denyWrite := b }).count fun g => g.inode == f.inode && g.denyWrite : ℕ)
    unfold Fs.fileDenials at hold
    rw [hold] at hc
    split_ifs at hc hcount <;> omega
  · refine Heap.count_set hf ?_
    rw [beq_false_of_ne (Ne.symm hj), Bool.false_and, Bool.false_and]

end Counted

end

end Pintos
