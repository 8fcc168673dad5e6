/-
  The handles on open inodes (filesys/inode.c, file.c and directory.c).

  A handle is a file, a directory or a reference that `inode_open` or `inode_reopen` returned and that is
  not yet wrapped in either.
-/
import Pintos.Fs.Counted
import Pintos.Fs.Frame
import Pintos.Lib.Steps

namespace Pintos

open Lib Prog List

deriving instance DecidableEq for Dir

/-! ## What each function does to the counts -/

section
variable {s t : Fs} {refs : List ℕ} {i file : ℕ} {n : Inode} {f : File}

/-- The part of the state that the counts are about. -/
abbrev Fs.opened (s : Fs) : List ℕ × Heap Inode × Heap File := (s.openInodes, s.inodes, s.files)

theorem Counted.congr_opened (h : Counted s refs) (ht : t.opened = s.opened) : Counted t refs := by
  obtain ⟨ho, ht⟩ := Prod.mk.inj ht
  obtain ⟨hi, hf⟩ := Prod.mk.inj ht
  exact h.congr ho hi hf

theorem opened_of_malloc {b : Bool} (h : malloc.run s = .ok (b, t)) : t.opened = s.opened :=
  keeps_malloc (fun _ _ => rfl) _ _ _ h

/-- The free map that `inode_close` may write is not among what is counted. -/
theorem opened_of_inodeClose (hn : s.inodes.get i = some n) (hrun : (inodeClose (some i)).run s = .ok ((), t)) :
    t.opened = (s.closeInode i n).opened := by
  unfold Fs.closeInode
  rw [inodeClose, run_bind_ok (getInode_run hn), run_bind_ok (setInode_run _ _ _)] at hrun
  by_cases hlast : n.openCnt = 1
  · rw [if_pos hlast]
    rw [if_pos (by omega), run_bind_modify] at hrun
    split_ifs at hrun with hrem
    · obtain ⟨_, s1, hrel1, hrun⟩ := ok_of_run_bind hrun
      obtain ⟨_, s2, hrel2, hrun⟩ := ok_of_run_bind hrun
      have hkeep : ∀ {sector cnt} {s t : Fs}, (freeMapRelease sector cnt).run s = .ok ((), t) → t.opened = s.opened :=
        fun h => keeps_freeMapRelease (fun _ _ => rfl) (fun _ _ => rfl) (fun _ _ => rfl) _ _ _ _ _ h
      obtain ⟨ho, hsame⟩ := Prod.mk.inj ((hkeep hrel2).trans (hkeep hrel1))
      obtain ⟨hi, hf⟩ := Prod.mk.inj hsame
      obtain ⟨-, rfl⟩ := ok_inj hrun
      change (s2.openInodes, s2.inodes.free i, s2.files) = _
      rw [ho, hi, hf]
      rfl
    · obtain ⟨-, rfl⟩ := ok_inj hrun
      rfl
  · rw [if_neg hlast]
    rw [if_neg (by omega)] at hrun
    obtain ⟨-, rfl⟩ := ok_inj hrun
    rfl

theorem files_of_inodeClose (hn : s.inodes.get i = some n) (hrun : (inodeClose (some i)).run s = .ok ((), t)) :
    t.files = s.files := by
  refine (Prod.mk.inj (Prod.mk.inj (opened_of_inodeClose hn hrun)).2).2.trans ?_
  unfold Fs.closeInode
  split_ifs <;> rfl

namespace Counted

variable {r : Option ℕ}

theorem inodeOpen {sector : ℕ} (h : Counted s refs) (hrun : (inodeOpen sector).run s = .ok (r, t)) :
    Counted t (r.toList ++ refs) := by
  unfold Pintos.inodeOpen at hrun
  rw [run_bind_get] at hrun
  rcases openLoop_run sector (fun i hi => (h.mem_iff i).1 hi) s.openInodes (List.Subset.refl _) with
    ⟨i, n, hloop, -, hn, -⟩ | ⟨hloop, hno⟩
  · rw [run_bind_ok hloop] at hrun
    obtain ⟨rfl, rfl⟩ := ok_inj ((inodeReopen_run hn).symm.trans hrun)
    exact h.reopen hn
  · rw [run_bind_ok hloop] at hrun
    obtain ⟨found, s1, hfound, hrun⟩ := ok_of_run_bind hrun
    have h1 := h.congr_opened (opened_of_malloc hfound)
    split_ifs at hrun with hmem
    · obtain ⟨data, s2, hread, hset⟩ := ok_of_run_bind hrun
      obtain rfl : s2 = s1 := keeps_blockRead (v := id) _ _ _ _ hread
      cases hset
      refine h1.alloc (fun {j m} hm => ?_) rfl rfl
      rw [(Prod.mk.inj (Prod.mk.inj (opened_of_malloc hfound)).2).1] at hm
      exact hno j ((h.mem_iff j).2 ⟨m, hm⟩) m hm
    · cases hrun
      exact h1

theorem inodeClose (h : Counted s (i :: refs)) (hrun : (inodeClose (some i)).run s = .ok ((), t)) : Counted t refs := by
  obtain ⟨n, hn⟩ := h.ref_inode mem_cons_self
  exact (h.close hn).congr_opened (opened_of_inodeClose hn hrun)

theorem fileOpen (h : Counted s (i :: refs)) (hrun : (fileOpen (some i)).run s = .ok (r, t)) :
    Counted t refs := by
  obtain ⟨found, s1, hfound, hrun⟩ := ok_of_run_bind hrun
  have h1 := h.congr_opened (opened_of_malloc hfound)
  cases found with
  | true =>
    obtain ⟨-, rfl⟩ := ok_inj hrun
    exact h1.openFile
  | false =>
    obtain ⟨_, s2, hclose, hrun⟩ := ok_of_run_bind hrun
    obtain ⟨-, rfl⟩ := ok_inj hrun
    exact h1.inodeClose hclose

theorem fileOpen_null (h : Counted s refs) (hrun : (Pintos.fileOpen none).run s = .ok (r, t)) :
    Counted t refs := by
  obtain ⟨found, s1, hfound, hrun⟩ := ok_of_run_bind hrun
  obtain ⟨-, rfl⟩ := ok_inj hrun
  exact h.congr_opened (opened_of_malloc hfound)

theorem dirOpen {r : Option Dir} (h : Counted s (i :: refs)) (hrun : (dirOpen (some i)).run s = .ok (r, t)) :
    Counted t (r.toList.map Dir.inode ++ refs) := by
  obtain ⟨found, s1, hfound, hrun⟩ := ok_of_run_bind hrun
  have h1 := h.congr_opened (opened_of_malloc hfound)
  cases found with
  | true =>
    cases hrun
    exact h1
  | false =>
    obtain ⟨_, s2, hclose, hrun⟩ := ok_of_run_bind hrun
    cases hrun
    exact h1.inodeClose hclose

theorem dirOpen_null {r : Option Dir} (h : Counted s refs) (hrun : (Pintos.dirOpen none).run s = .ok (r, t)) :
    Counted t (r.toList.map Dir.inode ++ refs) := by
  obtain ⟨found, s1, hfound, hrun⟩ := ok_of_run_bind hrun
  cases hrun
  exact h.congr_opened (opened_of_malloc hfound)

section

variable (h : Counted s refs) (hf : s.files.get file = some f)
include h hf

theorem denyWriteCnt_lt (hn : s.inodes.get f.inode = some n)
    (hw : f.denyWrite = false) : n.denyWriteCnt + 1 ≤ n.openCnt := by
  have hlt : s.fileDenials f.inode < s.fileRefs f.inode := Heap.count_lt
    (fun g hg => (Bool.and_eq_true_iff.1 hg).1) hf (beq_self_eq_true _) (by rw [hw, Bool.and_false])
  rw [h.denyWriteCnt_eq hn, h.openCnt_eq hn]
  omega

theorem fileDenyWrite :
    ∃ t, (Pintos.fileDenyWrite file).run s = .ok ((), t) ∧ Counted t refs ∧
      t.files = s.files.set file { f with denyWrite := true } := by
  cases hw : f.denyWrite with
  | true =>
    refine ⟨s, ?_, h, by rw [← hw, Heap.set_self hf]⟩
    unfold Pintos.fileDenyWrite
    rw [run_bind_ok (getFile_run hf), hw]
    rfl
  | false =>
    obtain ⟨n, hn⟩ := h.file_inode hf
    exact ⟨_, fileDenyWrite_run hf hn hw (h.denyWriteCnt_lt hf hn hw), h.setDeny hf hn (by rw [hw]; simp), rfl⟩

theorem fileAllowWrite :
    ∃ t, (Pintos.fileAllowWrite file).run s = .ok ((), t) ∧ Counted t refs ∧
      t.files = s.files.set file { f with denyWrite := false } := by
  cases hw : f.denyWrite with
  | false => exact ⟨s, fileAllowWrite_run_of_not hf hw, h, by rw [← hw, Heap.set_self hf]⟩
  | true =>
    obtain ⟨n, hn⟩ := h.file_inode hf
    have hpos : 0 < n.denyWriteCnt := by
      have := fileDenials_pos hf hw
      rw [h.denyWriteCnt_eq hn]
      omega
    exact ⟨_, fileAllowWrite_run hf hn hw hpos (h.denyWriteCnt_le hn), h.setDeny hf hn (by rw [hw]; simp), rfl⟩

theorem fileClose (hrun : (fileClose file).run s = .ok ((), t)) :
    Counted t refs ∧ t.files = (s.files.set file { f with denyWrite := false }).free file := by
  obtain ⟨s1, hallow, h1, hset⟩ := h.fileAllowWrite hf
  have hf1 : s1.files.get file = some { f with denyWrite := false } := by rw [hset, Heap.get_set hf, if_pos rfl]
  unfold Pintos.fileClose at hrun
  rw [run_bind_ok hallow, run_bind_ok (getFile_run hf1)] at hrun
  obtain ⟨_, s2, hclose, hrun⟩ := ok_of_run_bind hrun
  obtain ⟨-, rfl⟩ := ok_inj hrun
  obtain ⟨n, hn⟩ := h1.file_inode hf1
  -- the file becomes a reference, which is then closed
  have hopened := opened_of_inodeClose hn hclose
  refine ⟨((h1.closeFile hf1 rfl).close hn).congr_opened ?_, ?_⟩
  · obtain ⟨ho, hopened⟩ := Prod.mk.inj hopened
    obtain ⟨hi, hfiles⟩ := Prod.mk.inj hopened
    change (s2.openInodes, s2.inodes, s2.files.free file) = _
    rw [ho, hi, hfiles]
    unfold Fs.closeInode
    split_ifs <;> rfl
  · change s2.files.free file = _
    rw [files_of_inodeClose hn hclose, hset]

theorem fileReopen (hrun : (Pintos.fileReopen file).run s = .ok (r, t)) : Counted t refs := by
  obtain ⟨n, hn⟩ := h.file_inode hf
  unfold Pintos.fileReopen at hrun
  rw [run_bind_ok (getFile_run hf), run_bind_ok (inodeReopen_run hn)] at hrun
  exact (h.reopen hn).fileOpen hrun

end

theorem dirReopen {r : Option Dir} {d : Dir} (h : Counted s refs) (hd : d.inode ∈ refs)
    (hrun : (Pintos.dirReopen d).run s = .ok (r, t)) : Counted t (r.toList.map Dir.inode ++ refs) := by
  obtain ⟨n, hn⟩ := h.ref_inode hd
  unfold Pintos.dirReopen at hrun
  rw [run_bind_ok (inodeReopen_run hn)] at hrun
  exact (h.reopen hn).dirOpen hrun

theorem inode_iff (h : Counted s refs) (i : ℕ) : (∃ n, s.inodes.get i = some n) ↔ 0 < s.fileRefs i + refs.count i := by
  constructor
  · rintro ⟨n, hn⟩
    have hpos := h.openCnt_pos hn
    rw [h.openCnt_eq hn] at hpos
    omega
  · intro hpos
    rcases Nat.eq_zero_or_pos (refs.count i) with hzero | hmem
    · obtain ⟨k, f, hf, hfi⟩ := Heap.count_pos_iff.1 (show 0 < s.fileRefs i by omega)
      rw [← beq_iff_eq.1 hfi]
      exact h.file_inode hf
    · exact h.ref_inode (count_pos_iff.1 hmem)

theorem write_denied (h : Counted s refs) (hf : s.files.get file = some f) (hw : f.denyWrite = true)
    (buffer : ℕ → UInt8) (size : ℤ) (offset : ℕ) : (inodeWriteAt f.inode buffer size offset).run s = .ok (0, s) := by
  obtain ⟨n, hn⟩ := h.file_inode hf
  have hpos := fileDenials_pos hf hw
  unfold inodeWriteAt
  rw [run_bind_ok (getInode_run hn), if_pos]
  · rfl
  · rw [h.denyWriteCnt_eq hn]
    omega

end Counted

end

/-! ## Runs -/

structure Handles where
  fs : Fs
  /-- references that are not yet wrapped -/
  refs : List ℕ
  dirs : List Dir

/-- The number of handles on the inode `i`. -/
def Handles.on (s : Handles) (i : ℕ) : ℕ := s.fs.fileRefs i + (s.refs ++ s.dirs.map Dir.inode).count i

/-- The calls on handles; `mapFile` is the assignment to `free_map_file` in free-map.c. -/
inductive HandleOp where
  | inodeOpen (sector : ℕ)
  | inodeReopen (i : ℕ)
  | inodeClose (i : ℕ)
  | inodeRemove (i : ℕ)
  | fileOpen (i : Option ℕ)
  | fileReopen (file : ℕ)
  | fileDenyWrite (file : ℕ)
  | fileAllowWrite (file : ℕ)
  | fileClose (file : ℕ)
  | dirOpen (i : Option ℕ)
  | dirReopen (dir : Dir)
  | dirClose (dir : Dir)
  | mapFile (file : ℕ)

namespace HandleOp

/-- Calls are made on live handles; `file_open` and `dir_open` take an unwrapped reference, or
    `NULL`. -/
def Live (s : Handles) : HandleOp → Prop
  | inodeOpen _ => True
  | inodeReopen i | inodeRemove i => 0 < s.on i
  | inodeClose i => i ∈ s.refs
  | fileOpen i | dirOpen i => ∀ r ∈ i, r ∈ s.refs
  | fileReopen file | fileDenyWrite file | fileAllowWrite file | fileClose file | mapFile file =>
    (s.fs.files.get file).isSome
  | dirReopen dir | dirClose dir => dir ∈ s.dirs

instance (s : Handles) (op : HandleOp) : Decidable (op.Live s) := by
  cases op <;> unfold Live <;> infer_instance

/-- The references that are left when one of them is passed on. -/
def passed (refs : List ℕ) : Option ℕ → List ℕ
  | some i => refs.erase i
  | none => refs

/-- Run the call; the result are the references and directories afterwards. -/
def exec (refs : List ℕ) (dirs : List Dir) : HandleOp → FsM (List ℕ × List Dir)
  | inodeOpen sector => do
    let r ← Pintos.inodeOpen sector
    pure (r.toList ++ refs, dirs)
  | inodeReopen i => do
    let r ← Pintos.inodeReopen (some i)
    pure (r.toList ++ refs, dirs)
  | inodeClose i => do
    Pintos.inodeClose (some i)
    pure (refs.erase i, dirs)
  | inodeRemove i => do
    Pintos.inodeRemove i
    pure (refs, dirs)
  | fileOpen i => do
    let _ ← Pintos.fileOpen i
    pure (passed refs i, dirs)
  | fileReopen file => do
    let _ ← Pintos.fileReopen file
    pure (refs, dirs)
  | fileDenyWrite file => do
    Pintos.fileDenyWrite file
    pure (refs, dirs)
  | fileAllowWrite file => do
    Pintos.fileAllowWrite file
    pure (refs, dirs)
  | fileClose file => do
    Pintos.fileClose file
    pure (refs, dirs)
  | dirOpen i => do
    let r ← Pintos.dirOpen i
    pure (passed refs i, r.toList ++ dirs)
  | dirReopen dir => do
    let r ← Pintos.dirReopen dir
    pure (refs, r.toList ++ dirs)
  | dirClose dir => do
    Pintos.dirClose (some dir)
    pure (refs, dirs.erase dir)
  | mapFile file => do
    modify fun s => { s with freeMapFile := some file }
    pure (refs, dirs)

end HandleOp

namespace Handles

def step (s : Handles) (op : HandleOp) : Option Handles :=
  if op.Live s then
    match (op.exec s.refs s.dirs).run s.fs with
    | .ok ((refs, dirs), fs) => some ⟨fs, refs, dirs⟩
    | .error _ => none
  else none

/-- Before any inode is opened, on any device; `memory` says which allocations will fail. -/
def start (disk : ℕ → UInt8) (size : ℕ) (freeMap : Bitmap) (memory : ℕ → Bool) : Handles :=
  ⟨(Fs.boot disk size memory).withFreeMap freeMap, [], []⟩

/-- The references and directories are the references that no file holds. -/
def Ok (s : Handles) : Prop := Counted s.fs (s.refs ++ s.dirs.map Dir.inode)

variable {s t : Handles} {op : HandleOp}

theorem ok_start (disk : ℕ → UInt8) (size : ℕ) (freeMap : Bitmap) (memory : ℕ → Bool) :
    (start disk size freeMap memory).Ok :=
  .of_empty rfl (fun _ => rfl) (fun _ => rfl)

variable {refs : List ℕ}

theorem perm_passed {i : ℕ} (hi : i ∈ refs) (l : List ℕ) :
    (refs ++ l).Perm (i :: (refs.erase i ++ l)) :=
  (perm_cons_erase hi).append_right l

theorem perm_dir (r : Option Dir) (dirs : List Dir) :
    (r.toList.map Dir.inode ++ (refs ++ dirs.map Dir.inode)).Perm (refs ++ (r.toList ++ dirs).map Dir.inode) := by
  rw [map_append, ← append_assoc, ← append_assoc]
  exact perm_append_comm.append_right _

theorem perm_closed {dirs : List Dir} {d : Dir} (hd : d ∈ dirs) :
    (refs ++ dirs.map Dir.inode).Perm (d.inode :: (refs ++ (dirs.erase d).map Dir.inode)) :=
  (((perm_cons_erase hd).map Dir.inode).append_left refs).trans perm_middle

theorem ok_exec {dirs : List Dir} {fs : Fs} (h : s.Ok) (hlive : op.Live s)
    (hrun : (op.exec s.refs s.dirs).run s.fs = .ok ((refs, dirs), fs)) : Counted fs (refs ++ dirs.map Dir.inode) := by
  have hinode : ∀ {i}, 0 < s.on i → ∃ n, s.fs.inodes.get i = some n := fun hi => (h.inode_iff _).2 hi
  cases op with
  | inodeOpen sector =>
    obtain ⟨r, _, hopen, hret⟩ := ok_of_run_bind hrun
    cases hret
    rw [append_assoc]
    exact h.inodeOpen hopen
  | inodeReopen i =>
    obtain ⟨n, hn⟩ := hinode hlive
    rw [HandleOp.exec, run_bind_ok (inodeReopen_run hn)] at hrun
    cases hrun
    exact h.reopen hn
  | inodeClose i =>
    obtain ⟨_, _, hclose, hret⟩ := ok_of_run_bind hrun
    cases hret
    exact (h.perm (perm_passed hlive _)).inodeClose hclose
  | inodeRemove i =>
    obtain ⟨n, hn⟩ := hinode hlive
    rw [HandleOp.exec, run_bind_ok (inodeRemove_run hn)] at hrun
    cases hrun
    exact h.remove hn
  | fileOpen i =>
    obtain ⟨_, _, hopen, hret⟩ := ok_of_run_bind hrun
    cases hret
    cases i with
    | none => exact h.fileOpen_null hopen
    | some i => exact (h.perm (perm_passed (hlive i rfl) _)).fileOpen hopen
  | fileReopen file =>
    obtain ⟨f, hf⟩ := Option.isSome_iff_exists.1 hlive
    obtain ⟨_, _, hopen, hret⟩ := ok_of_run_bind hrun
    cases hret
    exact h.fileReopen hf hopen
  | fileDenyWrite file =>
    obtain ⟨f, hf⟩ := Option.isSome_iff_exists.1 hlive
    obtain ⟨_, hdeny, hcounted, -⟩ := h.fileDenyWrite hf
    rw [HandleOp.exec, run_bind_ok hdeny] at hrun
    cases hrun
    exact hcounted
  | fileAllowWrite file =>
    obtain ⟨f, hf⟩ := Option.isSome_iff_exists.1 hlive
    obtain ⟨_, hallow, hcounted, -⟩ := h.fileAllowWrite hf
    rw [HandleOp.exec, run_bind_ok hallow] at hrun
    cases hrun
    exact hcounted
  | fileClose file =>
    obtain ⟨f, hf⟩ := Option.isSome_iff_exists.1 hlive
    obtain ⟨_, _, hclose, hret⟩ := ok_of_run_bind hrun
    cases hret
    exact (h.fileClose hf hclose).1
  | dirOpen i =>
    obtain ⟨r, _, hopen, hret⟩ := ok_of_run_bind hrun
    cases hret
    refine Counted.perm ?_ (perm_dir r s.dirs)
    cases i with
    | none => exact h.dirOpen_null hopen
    | some i => exact (h.perm (perm_passed (hlive i rfl) _)).dirOpen hopen
  | dirReopen dir =>
    obtain ⟨r, _, hopen, hret⟩ := ok_of_run_bind hrun
    cases hret
    refine Counted.perm ?_ (perm_dir r s.dirs)
    exact h.dirReopen (mem_append_right _ (mem_map_of_mem hlive)) hopen
  | dirClose dir =>
    obtain ⟨_, _, hclose, hret⟩ := ok_of_run_bind hrun
    cases hret
    exact (h.perm (perm_closed hlive)).inodeClose hclose
  | mapFile file =>
    cases hrun
    exact h.congr rfl rfl rfl

theorem of_step (hstep : s.step op = some t) :
    op.Live s ∧ (op.exec s.refs s.dirs).run s.fs = .ok ((t.refs, t.dirs), t.fs) := by
  unfold step at hstep
  split_ifs at hstep with hlive
  split at hstep
  · rename_i refs dirs fs hrun
    cases hstep
    exact ⟨hlive, hrun⟩
  · cases hstep

theorem ok_step (h : s.Ok) (hstep : s.step op = some t) : t.Ok :=
  ok_exec h (of_step hstep).1 (of_step hstep).2

theorem ok_of_reaches (h : Reaches step anyStep s t) (hs : s.Ok) : t.Ok :=
  h.invariant hs fun _ _ _ hok _ hstep => ok_step hok hstep

/-- There is one handle on the inode `i` less; the inode is freed if it was the last one. -/
structure Closed (s t : Handles) (i : ℕ) : Prop where
  on : ∀ j, t.on j + (if j = i then 1 else 0) = s.on j
  freed : t.fs.inodes.get i = none ↔ s.on i = 1

/-- What a call does to the handle on which it is made. -/
def Done (s t : Handles) : HandleOp → Prop
  | .inodeReopen i => ∀ j, t.on j = s.on j + if j = i then 1 else 0
  | .inodeClose i => Closed s t i
  | .dirClose dir => Closed s t dir.inode
  | .fileClose file => ∃ f, s.fs.files.get file = some f ∧ Closed s t f.inode ∧
    ∀ k, t.fs.files.get k = if k = file then none else s.fs.files.get k
  | .fileDenyWrite file => ∃ f, s.fs.files.get file = some f ∧
    ∀ k, t.fs.files.get k = if k = file then some { f with denyWrite := true } else s.fs.files.get k
  | .fileAllowWrite file => ∃ f, s.fs.files.get file = some f ∧
    ∀ k, t.fs.files.get k = if k = file then some { f with denyWrite := false } else s.fs.files.get k
  | _ => True

theorem Ok.closed {i : ℕ} (h : t.Ok) (hon : ∀ j, t.on j + (if j = i then 1 else 0) = s.on j) : Closed s t i := by
  refine ⟨hon, ?_⟩
  have hi := hon i
  rw [if_pos rfl] at hi
  rw [← Option.not_isSome_iff_eq_none, Option.isSome_iff_exists, h.inode_iff i]
  change ¬ 0 < t.on i ↔ s.on i = 1
  omega

theorem one_if_beq (i j : ℕ) : (if (i == j) = true then 1 else 0) = if j = i then 1 else 0 :=
  if_congr (beq_iff_eq.trans eq_comm) rfl rfl

/-- A reference is closed. -/
theorem Ok.closed_ref {i : ℕ} (h : s.Ok) (ht : t.Ok) (hclose : (inodeClose (some i)).run s.fs = .ok ((), t.fs))
    (hperm : (s.refs ++ s.dirs.map Dir.inode).Perm (i :: (t.refs ++ t.dirs.map Dir.inode))) : Closed s t i := by
  obtain ⟨n, hn⟩ := h.ref_inode (hperm.mem_iff.2 mem_cons_self)
  refine ht.closed fun j => ?_
  unfold on Fs.fileRefs
  rw [files_of_inodeClose hn hclose, hperm.count_eq, count_cons, Nat.add_assoc, one_if_beq]

theorem done_step (h : s.Ok) (hstep : s.step op = some t) : Done s t op := by
  have ht := ok_step h hstep
  obtain ⟨hlive, hrun⟩ := of_step hstep
  cases op with
  | inodeReopen i =>
    obtain ⟨n, hn⟩ := (h.inode_iff i).2 hlive
    rw [HandleOp.exec, run_bind_ok (inodeReopen_run hn)] at hrun
    obtain ⟨hres, hfs⟩ := ok_inj hrun
    obtain ⟨hrefs, hdirs⟩ := Prod.mk.inj hres
    intro j
    unfold on
    rw [← hrefs, ← hdirs, ← hfs]
    change s.fs.fileRefs j + (i :: (s.refs ++ s.dirs.map Dir.inode)).count j = _
    rw [count_cons, ← Nat.add_assoc, one_if_beq]
  | inodeClose i =>
    obtain ⟨_, _, hclose, hret⟩ := ok_of_run_bind hrun
    obtain ⟨hres, rfl⟩ := ok_inj hret
    obtain ⟨hrefs, hdirs⟩ := Prod.mk.inj hres
    exact h.closed_ref ht hclose (hrefs ▸ hdirs ▸ perm_passed hlive _)
  | dirClose dir =>
    obtain ⟨_, _, hclose, hret⟩ := ok_of_run_bind hrun
    obtain ⟨hres, rfl⟩ := ok_inj hret
    obtain ⟨hrefs, hdirs⟩ := Prod.mk.inj hres
    exact h.closed_ref ht hclose (hrefs ▸ hdirs ▸ perm_closed hlive)
  | fileClose file =>
    obtain ⟨f, hf⟩ := Option.isSome_iff_exists.1 hlive
    obtain ⟨_, _, hclose, hret⟩ := ok_of_run_bind hrun
    obtain ⟨hres, rfl⟩ := ok_inj hret
    obtain ⟨hrefs, hdirs⟩ := Prod.mk.inj hres
    have hfiles := (h.fileClose hf hclose).2
    refine ⟨f, hf, ht.closed fun j => ?_, fun k => ?_⟩
    · have hcount := Heap.count_free (p := fun g : File => g.inode == j)
        ((Heap.get_set hf file (b := { f with denyWrite := false })).trans (if_pos rfl))
      rw [Heap.count_set (b := { f with denyWrite := false }) hf rfl, one_if_beq] at hcount
      unfold on Fs.fileRefs
      rw [← hrefs, ← hdirs, hfiles, ← hcount, Nat.add_right_comm]
    · rw [hfiles, Heap.get_free, Heap.get_set hf]
      split_ifs <;> rfl
  | fileDenyWrite file =>
    obtain ⟨f, hf⟩ := Option.isSome_iff_exists.1 hlive
    obtain ⟨_, hdeny, -, hfiles⟩ := h.fileDenyWrite hf
    rw [HandleOp.exec, run_bind_ok hdeny] at hrun
    obtain ⟨-, rfl⟩ := ok_inj hrun
    exact ⟨f, hf, fun k => by rw [hfiles, Heap.get_set hf]⟩
  | fileAllowWrite file =>
    obtain ⟨f, hf⟩ := Option.isSome_iff_exists.1 hlive
    obtain ⟨_, hallow, -, hfiles⟩ := h.fileAllowWrite hf
    rw [HandleOp.exec, run_bind_ok hallow] at hrun
    obtain ⟨-, rfl⟩ := ok_inj hrun
    exact ⟨f, hf, fun k => by rw [hfiles, Heap.get_set hf]⟩
  | _ => trivial

/-- What the counts of the inodes are good for. -/
structure Counts (s : Handles) : Prop where
  /-- an inode is in `open_inodes` and in memory as long as there is a handle on it -/
  mem_iff : ∀ i, i ∈ s.fs.openInodes ↔ 0 < s.on i
  inode_iff : ∀ i, (∃ n, s.fs.inodes.get i = some n) ↔ 0 < s.on i
  nodup : s.fs.openInodes.Nodup
  sector : ∀ i ∈ s.fs.openInodes, ∀ j ∈ s.fs.openInodes, s.fs.sectorAt i = s.fs.sectorAt j → i = j
  openCnt : ∀ i n, s.fs.inodes.get i = some n → n.openCnt = s.on i
  denyWriteCnt : ∀ i n, s.fs.inodes.get i = some n → n.denyWriteCnt = s.fs.fileDenials i ∧ n.denyWriteCnt ≤ n.openCnt
  /-- the assertions hold -/
  deny_allow : ∀ file, (s.fs.files.get file).isSome →
    (∃ fs, (fileDenyWrite file).run s.fs = .ok ((), fs)) ∧ ∃ fs, (fileAllowWrite file).run s.fs = .ok ((), fs)
  /-- writes store nothing while some file denies them -/
  denied : ∀ file f, s.fs.files.get file = some f → f.denyWrite = true → ∀ buffer size offset,
    (inodeWriteAt f.inode buffer size offset).run s.fs = .ok (0, s.fs) ∧
    ∀ file' f', s.fs.files.get file' = some f' → f'.inode = f.inode →
      (fileWriteAt file' buffer size offset).run s.fs = .ok (0, s.fs) ∧
      ∃ fs, (fileWrite file' buffer size).run s.fs = .ok (0, fs) ∧ fs.disk = s.fs.disk

theorem Ok.counts (h : s.Ok) : s.Counts where
  mem_iff i := (h.mem_iff i).trans (h.inode_iff i)
  inode_iff := h.inode_iff
  nodup := h.nodup
  sector i hi j hj hsec := by
    obtain ⟨n, hn⟩ := (h.mem_iff i).1 hi
    obtain ⟨m, hm⟩ := (h.mem_iff j).1 hj
    refine h.unique hn hm ?_
    unfold Fs.sectorAt at hsec
    rw [hn, hm] at hsec
    exact Option.some.inj hsec
  openCnt i n hn := h.openCnt_eq hn
  denyWriteCnt i n hn := ⟨h.denyWriteCnt_eq hn, h.denyWriteCnt_le hn⟩
  deny_allow file hfile := by
    obtain ⟨f, hf⟩ := Option.isSome_iff_exists.1 hfile
    obtain ⟨fs, hdeny, -⟩ := h.fileDenyWrite hf
    obtain ⟨fs', hallow, -⟩ := h.fileAllowWrite hf
    exact ⟨⟨fs, hdeny⟩, fs', hallow⟩
  denied file f hf hw buffer size offset := by
    refine ⟨h.write_denied hf hw buffer size offset, fun file' f' hf' hinode => ⟨?_, ?_⟩⟩
    · unfold fileWriteAt
      rw [run_bind_ok (getFile_run hf'), hinode]
      exact h.write_denied hf hw buffer size offset
    · refine ⟨s.fs.withFiles (s.fs.files.set file' { f' with pos := f'.pos + 0 }), ?_, rfl⟩
      unfold fileWrite
      rw [run_bind_ok (getFile_run hf'), hinode, run_bind_ok (h.write_denied hf hw buffer size f'.pos)]
      rfl

/-- **The counts of open inodes are those of their handles**, in every state that is reached by calls
    on live handles, whichever allocations fail; a close takes its handle away, and with the last one the inode. -/
theorem handles_counted {disk : ℕ → UInt8} {size : ℕ} {freeMap : Bitmap} {memory : ℕ → Bool}
    (h : Reaches step anyStep (start disk size freeMap memory) s) :
    s.Counts ∧ ∀ op t, s.step op = some t → Done s t op := by
  have hok := ok_of_reaches h (ok_start disk size freeMap memory)
  exact ⟨hok.counts, fun _ _ => done_step hok⟩

/-- A file is opened twice and as a directory; one of the files denies writes.  The third directory
    does not find memory, so that its reference is given back.  All are closed again, and the last close frees the
    inode. -/
theorem handles_counted_reopened : ∃ s t, Reaches step anyStep
    (start (fun _ => 0) 8 ⟨8, fun _ => true⟩ fun n => n != 5) s ∧ s.on 0 = 1 ∧ s.fs.fileDenials 0 = 1 ∧
    s.Counts ∧ s.step (.fileClose 1) = some t ∧ t.fs.files.get 1 = none ∧ t.fs.inodes.get 0 = none := by
  obtain ⟨s, hs, hp⟩ := reaches_of_run step anyStep (start (fun _ => 0) 8 ⟨8, fun _ => true⟩ fun n => n != 5)
    [.inodeOpen 2, .fileOpen (some 0), .fileReopen 0, .fileDenyWrite 1, .inodeOpen 2, .dirOpen (some 0), .dirReopen ⟨0⟩,
      .dirReopen ⟨0⟩, .fileClose 0, .dirClose ⟨0⟩, .dirClose ⟨0⟩]
    (fun s => s.on 0 = 1 ∧ s.fs.fileDenials 0 = 1 ∧ (s.fs.files.get 1).map (·.inode) = some 0 ∧
      (s.step (.fileClose 1)).isSome) (by decide +kernel)
  obtain ⟨hon, hdeny, hfile, hstep⟩ := of_decide_eq_true hp
  obtain ⟨hcounts, hdone⟩ := handles_counted hs
  obtain ⟨t, ht⟩ := Option.isSome_iff_exists.1 hstep
  obtain ⟨f, hf, hclosed, hfiles⟩ := hdone _ t ht
  rw [hf] at hfile
  have hinode : f.inode = 0 := Option.some.inj hfile
  rw [hinode] at hclosed
  exact ⟨s, t, hs, hon, hdeny, hcounts, ht, by rw [hfiles, if_pos rfl], hclosed.freed.2 hon⟩

end Handles

end Pintos
