/-
  A file that is opened, used and closed again, when memory may be missing.

  `OpenedFile s0 s nodes file nd` says that since `s0` the handle `file` was opened on the node `nd`, and
  that nothing else changed.
-/
import Pintos.Fs.Handles
import Pintos.Fs.Refine
import Pintos.Fs.Scarce

namespace Pintos

open Lib Prog List

/-! ## Reading a file -/

/-- The handle is open on a file with the content `c`, at the position `pos`. -/
def OpenOn (s : Fs) (file : ℕ) (c : List UInt8) (pos : ℕ) : Prop :=
  ∃ f n, s.files.get file = some f ∧ f.pos = pos ∧ Content s f.inode n c

/-- Does not depend on the answers of `malloc` and the position of the handle. -/
structure FileFrame (file : ℕ) (I : Fs → Prop) : Prop where
  memory : ∀ {s t}, I s → SameButMemory s t → I t
  move : ∀ {s f}, I s → s.files.get file = some f → ∀ pos, I (s.withFiles (s.files.set file { f with pos }))

namespace OpenOn

variable {s : Fs} {file pos : ℕ} {c : List UInt8} {I : Fs → Prop}

theorem move {f : File} {n : Inode} (hf : s.files.get file = some f) (hcontent : Content s f.inode n c) (pos : ℕ) :
    OpenOn (s.withFiles (s.files.set file { f with pos })) file c pos := by
  have hin := hcontent.inDevice
  refine ⟨{ f with pos }, n, ?_, rfl, hcontent.get, ⟨hin.1, hin.2, hin.3, hin.4⟩, hcontent.length_eq, hcontent.slice_eq⟩
  exact (Heap.get_set hf _).trans (if_pos rfl)

theorem length (h : OpenOn s file c pos) : (fileLength file).run s = .ok (c.length, s) ∧ c.length < 2 ^ 31 := by
  obtain ⟨f, n, hf, -, hcontent⟩ := h
  have hlt := hcontent.inDevice.length_lt
  rw [hcontent.length_eq] at hlt
  refine ⟨?_, by omega⟩
  unfold fileLength
  rw [run_bind_ok (getFile_run hf), run_bind_ok (getInode_run hcontent.get), hcontent.length_eq]
  rfl

theorem seek {newPos : ℤ} (h : OpenOn s file c pos) (hpos : 0 ≤ newPos) (hI : FileFrame file I) (hs : I s) :
    Prog.Returns (fileSeek file newPos) s fun _ t => I t ∧ OpenOn t file c newPos.toNat := by
  obtain ⟨f, n, hf, -, hcontent⟩ := h
  refine .bind_run (getFile_run hf) ?_
  rw [if_neg (by omega)]
  exact .of_run (setFile_run _ _ _) ⟨hI.move hs hf _, move hf hcontent _⟩

theorem read (h : OpenOn s file c pos) (size : ℤ) (hI : FileFrame file I) (hs : I s) :
    Prog.Returns (fileRead file size) s fun l t =>
      I t ∧ OpenOn t file c (pos + l.length) ∧ l <+: (c.drop pos).take size.toNat := by
  obtain ⟨f, n, hf, rfl, hcontent⟩ := h
  refine .bind_run (getFile_run hf) ((hcontent.read_scarce size f.pos).bind fun l t ⟨ht, hprefix⟩ => ?_)
  have hf' : t.files.get file = some f := by
    obtain ⟨m, rfl⟩ := ht
    exact hf
  exact .bind_run (setFile_run _ _ _) (.pure ⟨hI.move (hI.memory hs ht) hf' _, move hf' (hcontent.congr ht) _, hprefix⟩)

end OpenOn

/-! ## Counts -/

/-- What is counted of the inode `i`, if it is in memory. -/
def Fs.counts (s : Fs) (i : ℕ) : Option (ℕ × ℤ × ℤ) := (s.inodes.get i).map fun n => (n.sector, n.openCnt, n.denyWriteCnt)

section
variable {s s0 t : Fs} {nodes : Nodes} {refs : List ℕ} {file : ℕ} {nd : Node}

/-- The files are those of `s0`, on the same inodes. -/
structure Closed (s0 s : Fs) (nodes : Nodes) : Prop where
  sound : Sound s nodes []
  files : ∀ k, s.files.get k = s0.files.get k
  sectors : ∀ k, s.fileSector k = s0.fileSector k

structure OpenedFile (s0 s : Fs) (nodes : Nodes) (file : ℕ) (nd : Node) : Prop where
  sound : Sound s nodes []
  get : ∃ f n, s.files.get file = some f ∧ s.inodes.get f.inode = some n ∧ Kept nodes n.sector ∧ 2 ≤ n.sector ∧
    nodes n.sector = some nd
  fresh : s0.files.get file = none
  files : ∀ k ≠ file, s.files.get k = s0.files.get k
  sectors : ∀ k ≠ file, s.fileSector k = s0.fileSector k

theorem counts_eq (h₀ : Counted s []) (h : Counted t []) (hfiles : ∀ k, t.files.get k = s.files.get k)
    (hsec : ∀ k, t.fileSector k = s.fileSector k) : t.counts = s.counts := by
  have hcount : ∀ p, t.files.count p = s.files.count p := by
    intro p
    unfold Heap.count
    congr 1
    ext k
    rw [Heap.mem_having, Heap.mem_having, hfiles]
  have hrefs : ∀ i, t.fileRefs i = s.fileRefs i := fun i => hcount _
  funext i
  unfold Fs.counts
  cases hs : s.inodes.get i with
  | none =>
    cases ht : t.inodes.get i with
    | none => rfl
    | some m =>
      have hpos := (h.inode_iff i).1 ⟨m, ht⟩
      rw [hrefs] at hpos
      obtain ⟨n, hn⟩ := (h₀.inode_iff i).2 hpos
      rw [hs] at hn
      cases hn
  | some n =>
    have hpos := (h₀.inode_iff i).1 ⟨n, hs⟩
    obtain ⟨m, hm⟩ := (h.inode_iff i).2 ((hrefs i).symm ▸ hpos)
    -- a file that is open on the inode tells its sector
    obtain ⟨k, f, hf, hfi⟩ := Heap.count_pos_iff.1 (show 0 < s.fileRefs i from hpos)
    have hsector := hsec k
    rw [Fs.fileSector_eq, Fs.fileSector_eq, hfiles, hf] at hsector
    unfold Fs.sectorAt at hsector
    rw [Option.bind_some, Option.bind_some, beq_iff_eq.1 hfi, hs, hm, Option.map_some, Option.map_some,
      Option.some.injEq] at hsector
    rw [hm, Option.map_some, Option.map_some, hsector, h.openCnt_eq hm, h₀.openCnt_eq hs, h.denyWriteCnt_eq hm,
      h₀.denyWriteCnt_eq hs, hrefs, show t.fileDenials i = s.fileDenials i from hcount _]

theorem Closed.counts (h₀ : Sound s0 nodes []) (h : Closed s0 s nodes) : s.counts = s0.counts :=
  counts_eq h₀.counted h.sound.counted h.files h.sectors

theorem OpenedFile.counts_ne (h₀ : Sound s0 nodes []) (h : OpenedFile s0 s nodes file nd) : s.counts ≠ s0.counts := by
  intro hc
  obtain ⟨f, m, hf, hm, -⟩ := h.get
  have hrefs : s0.fileRefs f.inode < s.fileRefs f.inode :=
    Heap.count_lt_of_new hf (beq_self_eq_true _) h.fresh h.files
  have hi := congrFun hc f.inode
  unfold Fs.counts at hi
  rw [hm, Option.map_some] at hi
  obtain ⟨m0, hm0, heq⟩ := Option.map_eq_some_iff.1 hi.symm
  have hcnt : m0.openCnt = m.openCnt := congrArg (fun p => p.2.1) heq
  rw [h.sound.counted.openCnt_eq hm, h₀.counted.openCnt_eq hm0] at hcnt
  omega

theorem Closed.of_stays (h : Sound t nodes []) (hstay : Stays s t []) : Closed s t nodes :=
  ⟨h, fun k => by rw [hstay.same.files], fun k => by rw [hstay.same.fileSector]⟩

theorem Sound.update {refs' : List ℕ} (h : Sound s nodes refs) (hdisk : t.disk = s.disk) (hsize : t.size = s.size)
    (hmap : t.freeMap = s.freeMap) (hfile : t.freeMapFile = s.freeMapFile)
    (hsec : ∀ f, s.freeMapFile = some f → t.fileSector f = s.fileSector f)
    (ho : OpenInv t nodes.data (Kept nodes) refs') : Sound t nodes refs' := by
  obtain ⟨f, hf, h0⟩ := h.mapFile
  refine ⟨rfl, ?_, ?_, ?_, ?_, ho.congr rfl rfl rfl (fun _ => rfl) (fun _ => Iff.rfl), ⟨f, hfile.trans hf, ?_⟩, ?_, h.root⟩
  · exact (hsize.symm ▸ h.size_le : t.size ≤ 2 ^ 31)
  · change t.freeMap.bitCnt = t.size
    rw [hmap, hsize]
    exact h.bitCnt_eq
  · change AllStored t.disk nodes
    rw [hdisk]
    exact h.stored
  · change Layout t.size t.freeMap.bits nodes
    rw [hsize, hmap]
    exact h.layout
  · exact (hsec f hf).trans h0
  · change ∃ n, nodes 0 = some n ∧ HoldsMap n.content t.freeMap
    rw [hmap]
    exact h.mapNode

theorem OpenedFile.mapFile_ne (h : OpenedFile s0 s nodes file nd) : s.freeMapFile ≠ some file := by
  obtain ⟨f, n, hf, hn, -, hge, -⟩ := h.get
  obtain ⟨k, hk, h0⟩ := Inv.mapFile h.sound
  intro hfile
  cases hfile.symm.trans hk
  have hsec : s.fileSector file = some n.sector := by
    rw [Fs.fileSector_eq, hf]
    exact congrArg (Option.map (·.sector)) hn
  have := Option.some.inj (hsec.symm.trans h0)
  omega

namespace OpenedFile

theorem openInv (h : OpenedFile s0 s nodes file nd) : OpenInv s nodes.data (Kept nodes) [] :=
  (Inv.opened h.sound).congr rfl rfl rfl (fun _ => rfl) (fun _ => Iff.rfl)

variable {f : File}

/-- The handle and its inode change, but not which inode that is. -/
theorem update {f' : File} {m : Inode} (h : OpenedFile s0 s nodes file nd) (hdisk : t.disk = s.disk)
    (hsize : t.size = s.size) (hmap : t.freeMap = s.freeMap) (hfile : t.freeMapFile = s.freeMapFile)
    (hf : s.files.get file = some f) (hf' : t.files.get file = some f')
    (hn' : t.inodes.get f'.inode = some m) (hn : (s.inodes.get f.inode).map (·.sector) = some m.sector)
    (hfiles : ∀ k ≠ file, t.files.get k = s.files.get k) (hsec : t.fileSector = s.fileSector)
    (ho : OpenInv t nodes.data (Kept nodes) []) : OpenedFile s0 t nodes file nd := by
  obtain ⟨g, n, hg, hn0, hkept, hge, hnd⟩ := h.get
  cases hf.symm.trans hg
  rw [hn0, Option.map_some, Option.some.injEq] at hn
  rw [hn] at hkept hge hnd
  refine ⟨h.sound.update hdisk hsize hmap hfile (fun k _ => by rw [hsec]) ho, ⟨f', m, hf', hn', hkept, hge, hnd⟩, h.fresh, ?_, ?_⟩
  · exact fun k hk => (hfiles k hk).trans (h.files k hk)
  · exact fun k hk => (congrFun hsec k).trans (h.sectors k hk)

theorem congr (h : OpenedFile s0 s nodes file nd) (ht : SameButMemory s t) : OpenedFile s0 t nodes file nd := by
  obtain ⟨m, rfl⟩ := ht
  exact ⟨h.sound, h.get, h.fresh, h.files, h.sectors⟩

theorem move (h : OpenedFile s0 s nodes file nd) (hf : s.files.get file = some f) (pos : ℕ) :
    OpenedFile s0 (s.withFiles (s.files.set file { f with pos })) nodes file nd := by
  obtain ⟨g, n, hg, hn, -⟩ := h.get
  cases hf.symm.trans hg
  have hget : ∀ k, (s.files.set file { f with pos }).get k = if k = file then some { f with pos } else s.files.get k :=
    Heap.get_set hf
  refine h.update rfl rfl rfl rfl hf ((hget file).trans (if_pos rfl)) hn (by rw [hn]; rfl)
    (fun k hk => (hget k).trans (if_neg hk)) ?_ (h.openInv.moveFile hf)
  funext k
  rw [Fs.fileSector_eq, Fs.fileSector_eq]
  change ((s.files.set file { f with pos }).get k).bind _ = _
  rw [hget]
  split_ifs with hk
  · rw [hk, hf]
    rfl
  · rfl

theorem setDeny {n : Inode} {b : Bool} {c : ℤ} (h : OpenedFile s0 s nodes file nd) (hf : s.files.get file = some f)
    (hn : s.inodes.get f.inode = some n)
    (hc : c + (if f.denyWrite then 1 else 0) = n.denyWriteCnt + (if b then 1 else 0)) :
    OpenedFile s0 (s.setDeny file f n b c) nodes file nd := by
  have hsec : ¬ n.sector < 2 := by
    obtain ⟨g, m, hg, hm, -, hge, -⟩ := h.get
    cases hf.symm.trans hg
    cases hn.symm.trans hm
    omega
  have hget : ∀ k, (s.files.set file { f with denyWrite := b }).get k =
      if k = file then some { f with denyWrite := b } else s.files.get k := Heap.get_set hf
  refine h.update rfl rfl rfl rfl hf
    ((hget file).trans (if_pos rfl)) ((Heap.get_set hn _).trans (if_pos rfl)) ?_ (fun k hk => (hget k).trans (if_neg hk))
    (fileSector_setDeny hf hn) (h.openInv.setDeny hf hn hc fun hlt => absurd hlt hsec)
  rw [hn]
  rfl

/-! ## Calls on the handle -/

theorem denyWrite (h : OpenedFile s0 s nodes file nd) :
    Prog.Returns (fileDenyWrite file) s fun _ t => OpenedFile s0 t nodes file nd := by
  obtain ⟨f, n, hf, hn, -⟩ := h.get
  cases hw : f.denyWrite with
  | true =>
    refine .of_run (a := ()) ?_ h
    unfold fileDenyWrite
    rw [run_bind_ok (getFile_run hf), hw]
    rfl
  | false =>
    exact .of_run (fileDenyWrite_run hf hn hw (h.sound.counted.denyWriteCnt_lt hf hn hw)) (h.setDeny hf hn (by rw [hw]; simp))

theorem allowWrite (h : OpenedFile s0 s nodes file nd) :
    Prog.Returns (fileAllowWrite file) s fun _ t => OpenedFile s0 t nodes file nd ∧
      ∃ f, t.files.get file = some f ∧ f.denyWrite = false := by
  obtain ⟨f, n, hf, hn, -⟩ := h.get
  cases hw : f.denyWrite with
  | false => exact .of_run (fileAllowWrite_run_of_not hf hw) ⟨h, f, hf, hw⟩
  | true =>
    have hpos : 0 < n.denyWriteCnt := by
      have := fileDenials_pos hf hw
      rw [h.sound.counted.denyWriteCnt_eq hn]
      omega
    exact .of_run (fileAllowWrite_run hf hn hw hpos (h.sound.counted.denyWriteCnt_le hn))
      ⟨h.setDeny hf hn (by rw [hw]; simp), { f with denyWrite := false }, (Heap.get_set hf _).trans (if_pos rfl), rfl⟩

theorem frame : FileFrame file fun t => OpenedFile s0 t nodes file nd := ⟨congr, move⟩

theorem openOn (h : OpenedFile s0 s nodes file nd) : ∃ pos, OpenOn s file nd.content pos := by
  obtain ⟨f, n, hf, hn, -, -, hnd⟩ := h.get
  exact ⟨f.pos, f, n, hf, rfl, h.sound.content hn hnd⟩

/-- **Closing the handle** leaves the files as they were. -/
theorem close (h : OpenedFile s0 s nodes file nd) :
    Prog.Returns (fileClose file) s fun _ t => Closed s0 t nodes := by
  refine h.allowWrite.bind fun _ t ⟨h1, f, hf, hw⟩ => .bind_run (getFile_run hf) ?_
  obtain ⟨g, n, hg, hn, hkept, -⟩ := h1.get
  cases hf.symm.trans hg
  have hremoved : n.removed = false := by
    rw [Bool.eq_false_iff]
    exact fun hr => (h1.openInv.inode hn).removed_iff.1 hr hkept
  refine .bind_run (inodeClose_run hn (.inl hremoved)) (.of_run (run_modify _ _) ?_)
  -- the file becomes a reference, which is then closed
  have hopen := h1.openInv.closeFile hf hw
  have hget : ∀ k, (t.files.free file).get k = s0.files.get k := by
    intro k
    rw [Heap.get_free]
    split_ifs with hk
    · rw [hk, h1.fresh]
    · exact h1.files k hk
  have hsector : ∀ k, (t.withFiles (t.files.free file)).fileSector k = s0.fileSector k := by
    intro k
    by_cases hk : k = file
    · rw [hk, Fs.fileSector_eq, Fs.fileSector_eq, h1.fresh]
      change ((t.files.free file).get file).bind _ = _
      rw [hget, h1.fresh]
      rfl
    · rw [← h1.sectors k hk, Fs.fileSector_eq, Fs.fileSector_eq]
      change ((t.files.free file).get k).bind _ = _
      rw [hget, ← h1.files k hk]
      rfl
  have hsound : Sound (t.withFiles (t.files.free file)) nodes [f.inode] := by
    refine h1.sound.update rfl rfl rfl rfl (fun k hk => ?_) hopen
    rw [hsector, h1.sectors k]
    rintro rfl
    exact h1.mapFile_ne hk
  have hswap : (t.closeInode f.inode n).withFiles ((t.closeInode f.inode n).files.free file) =
      (t.withFiles (t.files.free file)).closeInode f.inode n := by
    unfold Fs.closeInode
    split_ifs <;> rfl
  have hclose := hsound.counted.fileSector_close hn
  refine ⟨?_, fun k => ?_, fun k => ?_⟩
  · unfold Sound
    rw [hswap, ← Sound.closeInode_plenty]
    exact Inv.closeInode hsound hn
  · refine Eq.trans ?_ (hget k)
    unfold Fs.closeInode
    split_ifs <;> rfl
  · rw [hswap, hclose, hsector]

end OpenedFile

/-! ## Opening -/

theorem Sound.bound_ge {k : ℕ} {name : Name} (h : Sound s nodes refs) (hk : Bound nodes name k) : 2 ≤ k := by
  obtain ⟨root, hroot, hdir⟩ := Inv.root h
  obtain ⟨j, hj, hname, rfl⟩ := (bound_iff hroot name k).1 hk
  exact (hdir.node hj (hasName_iff.1 hname).1).1

theorem Sound.openFile {i k : ℕ} (h : Sound s nodes [i]) (hsec : s.sectorAt i = some k) (hkept : Kept nodes k) (hge : 2 ≤ k)
    (h₀ : Stays s0 s []) : Prog.Returns (fileOpen (some i)) s fun r t => match r with
      | none => Closed s0 t nodes
      | some file => ∃ nd, OpenedFile s0 t nodes file nd := by
  obtain ⟨n, hn, rfl⟩ := Option.map_eq_some_iff.1 hsec
  obtain ⟨nd, hnd, -⟩ := h.node hn
  refine .bind_run (malloc_scarce s) ?_
  have ht : SameButMemory s (s.withMemory fun n => s.memory (n + 1)) := ⟨_, rfl⟩
  have hstay : Stays s0 (s.withMemory fun n => s.memory (n + 1)) [] := h₀.trans (.of_memory [] ht)
  cases s.memory 0 with
  | false =>
    exact ((h.congr ht).closeRef hsec hkept).bind fun _ t ⟨h1, hstay1⟩ => .pure (Closed.of_stays h1 (hstay.trans hstay1))
  | true =>
    refine .bind_run (run_get _) (.bind_run (run_set _ _) (.pure ⟨nd, ?_⟩))
    have hplenty := (Inv.openFile h).2
    refine ⟨hplenty.1, ⟨⟨i, 0, false⟩, n, Heap.get_alloc_self, hn, hkept, hge, hnd⟩, ?_, fun k hk => ?_, fun k hk => ?_⟩
    · rw [← hstay.same.files]
      exact s.files.get_next _ le_rfl
    · refine (Heap.get_alloc_of_ne hk).trans ?_
      rw [hstay.same.files]
    · refine (hplenty.2.1 k).trans ((if_neg hk).trans ?_)
      exact congrFun hstay.same.fileSector k

/-- **`filesys_open`** opens a handle, or leaves all as it was. -/
theorem Sound.open (h : Sound s nodes []) (name : Name) : Prog.Returns (filesysOpen name) s fun r t => match r with
    | none => Closed s t nodes
    | some file => ∃ nd, OpenedFile s t nodes file nd := by
  -- without an inode there is nothing to open
  have hnull : ∀ t, Sound t nodes [] → Stays s t [] → Prog.Returns (fileOpen none) t fun r t => match r with
      | none => Closed s t nodes
      | some file => ∃ nd, OpenedFile s t nodes file nd := by
    intro t ht hstay
    have hm : SameButMemory t (t.withMemory fun n => t.memory (n + 1)) := ⟨_, rfl⟩
    exact .bind_run (malloc_scarce t) (.bind_run rfl (.pure (Closed.of_stays (ht.congr hm) (hstay.trans (.of_memory [] hm)))))
  refine h.openRoot.bind fun dir t ⟨h1, hstay1, hsec1⟩ => ?_
  cases dir with
  | none => exact hnull t h1 hstay1
  | some d =>
    refine (h1.lookupName (hsec1 d rfl) name).bind fun inode u ⟨h2, hstay2, hsec2⟩ => ?_
    have hroot : u.sectorAt d.inode = some 1 := (hstay2.refs _ mem_cons_self).trans (hsec1 d rfl)
    have hstay : Stays s u [] := hstay1.trans (hstay2.subset (nil_subset _))
    cases inode with
    | none =>
      refine (Sound.closeRef h2 hroot (.inl (by decide))).bind fun _ w ⟨h3, hstay3⟩ => ?_
      exact hnull w h3 (hstay.trans hstay3)
    | some i =>
      obtain ⟨k, hbound, hsec⟩ := hsec2 i rfl
      have hswap : Sound u nodes [d.inode, i] := h2.perm (List.Perm.swap _ _ _)
      refine (hswap.closeRef hroot (.inl (by decide))).bind fun _ w ⟨h3, hstay3⟩ => ?_
      refine h3.openFile ((hstay3.refs i mem_cons_self).trans hsec) (Inv.bound_kept hbound) (h.bound_ge hbound) ?_
      exact hstay.trans (hstay3.subset (nil_subset _))

end

end Pintos
