/-
  The assertions of inode.c and file.c.

  Whatever is on the device and whenever memory is missing, the functions of the file system fail none of
  these assertions, as long as the counts of the open inodes are right (`Counted`) and the file of the free
  map is open (`MapLive`): both are kept by every function.
-/
import Pintos.Fs.Handles
import Pintos.Lib.Avoids

namespace Pintos

open Lib Prog List

/-- The assertions of inode.c and file.c.  That a pointer is not null is asserted in some places and
    needed in all. -/
def Panic.isAssertion : Panic → Bool
  | .length | .position | .denyWrite | .allowWrite | .pointer => true
  | .pastEnd | .bitmap | .release | .format | .bound => false

/-- The program fails no assertion from `s`, and where it returns, `Q` holds. -/
abbrev NoAssert {α : Type} (x : FsM α) (s : Fs) (Q : α → Fs → Prop) : Prop :=
  Prog.Avoids (fun p : Panic => p.isAssertion = true) x s Q

/-- The program fails no assertion. -/
abbrev Silent {α : Type} (x : FsM α) : Prop := Prog.Quiet (fun p : Panic => p.isAssertion = true) x

/-- What is open. -/
abbrev Fs.handles (s : Fs) : (List ℕ × Heap Inode × Heap File) × Option ℕ := (s.opened, s.freeMapFile)

/-- The files that are open. -/
abbrev Fs.held (s : Fs) : Heap File × Option ℕ := (s.files, s.freeMapFile)

theorem held_of_handles {s t : Fs} (h : t.handles = s.handles) : t.held = s.held := by
  obtain ⟨ho, hm⟩ := Prod.mk.inj h
  exact Prod.ext (Prod.mk.inj (Prod.mk.inj ho).2).2 hm

/-- The file of the free map is open. -/
def MapLive (s : Fs) : Prop :=
  ∃ m f n, s.freeMapFile = some m ∧ s.files.get m = some f ∧ s.inodes.get f.inode = some n

variable {s t : Fs} {refs : List ℕ} {i sector cnt file : ℕ} {n : Inode} {f : File}

theorem MapLive.congr (h : MapLive s) (ht : t.handles = s.handles) : MapLive t := by
  obtain ⟨m, f, n, hm, hf, hn⟩ := h
  obtain ⟨ho, hmap⟩ := Prod.mk.inj ht
  obtain ⟨-, ho⟩ := Prod.mk.inj ho
  obtain ⟨hi, hfiles⟩ := Prod.mk.inj ho
  exact ⟨m, f, n, hmap.trans hm, hfiles ▸ hf, hi ▸ hn⟩

theorem Counted.mapLive_congr (h : Counted t refs) (hm : MapLive s) (ht : t.held = s.held) : MapLive t := by
  obtain ⟨m, f, _, hmap, hf, -⟩ := hm
  obtain ⟨hfiles, hmap'⟩ := Prod.mk.inj ht
  have hf' : t.files.get m = some f := hfiles ▸ hf
  obtain ⟨n, hn⟩ := h.file_inode hf'
  exact ⟨m, f, n, hmap'.trans hmap, hf', hn⟩

theorem Counted.congr_handles (h : Counted s refs) (ht : t.handles = s.handles) : Counted t refs :=
  h.congr_opened (Prod.mk.inj ht).1

/-! ## The device and the free map -/

namespace Bitmap

variable {b : Bitmap} {e : Panic} {start idx : ℕ} {value : Bool}

theorem error_test {r : Panic} (h : b.test idx = .error r) : r = .bitmap := by
  unfold test at h
  split_ifs at h
  exact (Except.error.inj h).symm

theorem error_set (h : b.set idx value = .error e) : e = .bitmap := by
  unfold set at h
  split_ifs at h
  exact (Except.error.inj h).symm

theorem error_setMultiple (h : b.setMultiple start cnt value = .error e) : e = .bitmap := by
  have hloop : ∀ (n i : ℕ) (b : Bitmap), setFrom start value n i b = .error e → e = .bitmap := by
    intro n
    induction n with
    | zero => exact fun _ _ h => nomatch h
    | succ n ih =>
      intro i b h
      unfold setFrom at h
      split at h
      · exact ih _ _ h
      · rename_i hset
        exact Except.error.inj h ▸ error_set hset
  unfold setMultiple at h
  split_ifs at h
  · exact hloop _ _ _ h
  · exact (Except.error.inj h).symm

theorem error_contains (h : b.contains start cnt value = .error e) : e = .bitmap := by
  have hloop : ∀ (n i : ℕ), b.containsFrom start value n i = .error e → e = .bitmap := by
    intro n
    induction n with
    | zero => exact fun _ h => nomatch h
    | succ n ih =>
      intro i h
      unfold containsFrom at h
      split at h
      · split_ifs at h
        exact ih _ h
      · rename_i htest
        exact Except.error.inj h ▸ error_test htest
  unfold contains at h
  split_ifs at h
  · exact hloop _ _ h
  · exact (Except.error.inj h).symm

theorem error_all (h : b.all start cnt = .error e) : e = .bitmap := by
  unfold all at h
  split at h
  · cases h
  · rename_i hc
    exact Except.error.inj h ▸ error_contains hc

theorem error_scanAndFlip (h : b.scanAndFlip start cnt value = .error e) : e = .bitmap := by
  have hloop : ∀ (n i : ℕ) {e : Panic}, b.scanFrom cnt value n i = .error e → e = .bitmap := by
    intro n
    induction n with
    | zero => exact fun _ _ h => nomatch h
    | succ n ih =>
      intro i e h
      unfold scanFrom at h
      split at h
      · cases h
      · exact ih _ h
      · rename_i hc
        exact Except.error.inj h ▸ error_contains hc
  unfold scanAndFlip at h
  split at h
  · cases h
  · split at h
    · cases h
    · rename_i hset
      exact Except.error.inj h ▸ error_setMultiple hset
  · rename_i hscan
    obtain rfl := Except.error.inj h
    unfold scan at hscan
    split_ifs at hscan
    · exact hloop _ _ hscan
    · exact (Except.error.inj hscan).symm

end Bitmap

theorem quiet_malloc : Silent malloc := quiet_get.bind fun _ => (quiet_set _).bind fun _ => quiet_pure _

theorem quiet_bounceBuffer (bounce : Bool) : Silent (bounceBuffer bounce) := .ite (quiet_pure _) quiet_malloc

theorem quiet_blockRead (sector : ℕ) : Silent (blockRead sector) :=
  quiet_get.bind fun _ => .ite (quiet_pure _) (quiet_throw nofun)

theorem quiet_blockWrite (sector : ℕ) (buffer : List UInt8) : Silent (blockWrite sector buffer) :=
  quiet_get.bind fun _ => .ite (quiet_set _) (quiet_throw nofun)

theorem quiet_zeroLoop (start : ℕ) : ∀ n i, Silent (zeroLoop start n i)
  | 0, _ => quiet_pure _
  | n + 1, i => (quiet_blockWrite _ _).bind fun _ => quiet_zeroLoop start n (i + 1)

theorem quiet_readLoop (n : Inode) : ∀ (fuel : ℕ) (bounce : Bool) (size : ℤ) (offset : ℕ) (buffer : List UInt8),
    Silent (readLoop n fuel bounce size offset buffer)
  | 0, _, _, _, _ => .ite (quiet_throw nofun) (quiet_pure _)
  | fuel + 1, bounce, size, offset, buffer => by
    refine .ite (.ite (quiet_pure _) (.ite ?_ ?_)) (quiet_pure _)
    · exact (quiet_blockRead _).bind fun _ => quiet_readLoop n fuel _ _ _ _
    · refine (quiet_bounceBuffer bounce).bind fun _ => .ite ?_ (quiet_pure _)
      exact (quiet_blockRead _).bind fun _ => quiet_readLoop n fuel _ _ _ _

theorem quiet_writeLoop (n : Inode) (buffer : ℕ → UInt8) : ∀ (fuel : ℕ) (bounce : Bool) (size : ℤ) (offset written : ℕ),
    Silent (writeLoop n buffer fuel bounce size offset written)
  | 0, _, _, _, _ => .ite (quiet_throw nofun) (quiet_pure _)
  | fuel + 1, bounce, size, offset, written => by
    refine .ite (.ite (quiet_pure _) (.ite ?_ ?_)) (quiet_pure _)
    · exact (quiet_blockWrite _ _).bind fun _ => quiet_writeLoop n buffer fuel _ _ _ _
    · refine (quiet_bounceBuffer bounce).bind fun _ => .ite ?_ (quiet_pure _)
      refine .ite ((quiet_blockRead _).bind fun _ => ?_) ((quiet_pure _).bind fun _ => ?_) <;>
        exact (quiet_blockWrite _ _).bind fun _ => quiet_writeLoop n buffer fuel _ _ _ _

theorem noAssert_onFreeMap {α : Type} {g : Bitmap → Except Panic α} (hg : ∀ b e, g b = .error e → e = .bitmap) :
    NoAssert (onFreeMap g) s fun _ t => t = s := by
  refine .bind_run (run_get s) ?_
  cases hb : g s.freeMap with
  | ok a => exact .pure rfl
  | error e =>
    rw [hg _ _ hb]
    exact .throw nofun

/-! ## Inodes in memory -/

theorem noAssert_inodeReadAt (hn : s.inodes.get i = some n) (size : ℤ) (offset : ℕ) :
    NoAssert (inodeReadAt i size offset) s fun _ t => t.handles = s.handles := by
  have h : NoAssert (inodeReadAt i size offset) s fun _ _ => True := .bind_run (getInode_run hn) (quiet_readLoop n _ _ _ _ _ s)
  exact (h.and_keeps (keeps_inodeReadAt (fun _ _ => rfl) i size offset)).mono fun _ _ h => h.2

theorem noAssert_inodeWriteAt (hn : s.inodes.get i = some n) (buffer : ℕ → UInt8) (size : ℤ) (offset : ℕ) :
    NoAssert (inodeWriteAt i buffer size offset) s fun _ t => t.handles = s.handles := by
  have h : NoAssert (inodeWriteAt i buffer size offset) s fun _ _ => True :=
    .bind_run (getInode_run hn) (.ite (fun _ => .pure trivial) fun _ => quiet_writeLoop n buffer _ _ _ _ _ s)
  exact (h.and_keeps (keeps_inodeWriteAt (fun _ _ => rfl) (fun _ _ => rfl) i buffer size offset)).mono
    fun _ _ h => h.2

theorem noAssert_bitmapWrite (hf : s.files.get file = some f) (hn : s.inodes.get f.inode = some n) :
    NoAssert (bitmapWrite file) s fun _ t => t.handles = s.handles := by
  refine .bind_run (run_get s) ?_
  refine Prog.Avoids.bind (.bind_run (getFile_run hf) (noAssert_inodeWriteAt hn _ _ _)) fun _ t ht => ?_
  exact .pure ht

theorem noAssert_freeMapRelease (hm : MapLive s) (sector cnt : ℕ) :
    NoAssert (freeMapRelease sector cnt) s fun _ t => t.handles = s.handles := by
  obtain ⟨m, f, n, hmap, hf, hn⟩ := hm
  refine (noAssert_onFreeMap fun _ _ => Bitmap.error_all).bind fun all t ht => .ite (fun _ => ?_) fun _ => .throw nofun
  subst ht
  refine (noAssert_onFreeMap fun _ _ => Bitmap.error_setMultiple).bind fun b t ht => ?_
  subst ht
  refine .bind_run (run_modify _ _) (.bind_run (run_get _) ?_)
  rw [show (t.withFreeMap b).freeMapFile = some m from hmap]
  refine Prog.Avoids.bind (noAssert_bitmapWrite hf hn) fun _ u hu => ?_
  exact .pure hu

theorem noAssert_freeMapAllocate (hm : MapLive s) (cnt : ℕ) :
    NoAssert (freeMapAllocate cnt) s fun _ t => t.handles = s.handles := by
  obtain ⟨m, f, n, hmap, hf, hn⟩ := hm
  refine (noAssert_onFreeMap fun _ _ => Bitmap.error_scanAndFlip).bind fun flipped t ht => ?_
  subst ht
  refine .bind_run (run_modify _ _) ?_
  cases flipped.1 with
  | none => exact .pure rfl
  | some start =>
    refine .bind_run (run_get _) ?_
    rw [show (t.withFreeMap flipped.2).freeMapFile = some m from hmap]
    refine (noAssert_bitmapWrite (s := t.withFreeMap flipped.2) hf hn).bind fun written u hu => .ite (fun _ => .pure hu) fun _ => ?_
    refine (noAssert_onFreeMap fun _ _ => Bitmap.error_setMultiple).bind fun b v hv => ?_
    subst hv
    exact .bind_run (run_modify _ _) (.pure hu)

theorem noAssert_inodeCreate (hm : MapLive s) (sector : ℕ) {length : ℤ} (hlen : 0 ≤ length) :
    NoAssert (inodeCreate sector length) s fun _ t => t.handles = s.handles := by
  refine .ite (fun hneg => absurd hneg (Int.not_lt.2 hlen)) fun _ => ?_
  refine ((quiet_malloc s).and_keeps (keeps_malloc (v := Fs.handles) fun _ _ => rfl)).bind fun found t ht => ?_
  refine .ite (fun _ => ?_) fun _ => .pure ht.2
  refine (noAssert_freeMapAllocate (hm.congr ht.2) _).bind fun allocated u hu => ?_
  have hus := hu.trans ht.2
  cases allocated with
  | none => exact .pure hus
  | some start =>
    refine ((quiet_blockWrite sector _ u).and_keeps (keeps_blockWrite (v := Fs.handles) (fun _ _ => rfl) _ _)).bind fun _ w hw => ?_
    have hzero : Prog.Keeps Fs.handles (zeroLoop start (bytesToSectors length) 0) := by
      have hloop : ∀ n i, Prog.Keeps Fs.handles (zeroLoop start n i) := by
        intro n
        induction n with
        | zero => exact fun _ => keeps_pure _
        | succ n ih => exact fun i => (keeps_blockWrite (fun _ _ => rfl) _ _).bind fun _ => ih (i + 1)
      exact hloop _ _
    refine ((quiet_zeroLoop start _ 0 w).and_keeps hzero).bind fun _ v hv => .pure ?_
    exact hv.2.trans (hw.2.trans hus)

/-! ## References -/

theorem MapLive.set (h : MapLive s) (hn : s.inodes.get i = some n) (o : List ℕ) (n' : Inode) :
    MapLive (s.withInodes o (s.inodes.set i n')) := by
  obtain ⟨m, f, k, hm, hf, hk⟩ := h
  obtain ⟨k', hk'⟩ : ∃ k', (s.inodes.set i n').get f.inode = some k' := by
    rw [Heap.get_set hn]
    split_ifs
    · exact ⟨n', rfl⟩
    · exact ⟨k, hk⟩
  exact ⟨m, f, k', hm, hf, hk'⟩

theorem noAssert_close (hn : s.inodes.get i = some n) (hm : MapLive s) :
    NoAssert (inodeClose (some i)) s fun _ t => t.held = s.held := by
  refine .bind_run (getInode_run hn) (.bind_run (setInode_run _ _ _) ?_)
  refine .ite (fun _ => .bind_run (run_modify _ _) ?_) fun _ => .pure rfl
  set u := (s.withInodes s.openInodes (s.inodes.set i { n with openCnt := n.openCnt - 1 })) with hu
  have hlive : MapLive (u.withInodes (u.openInodes.erase i) u.inodes) := hm.set hn _ _
  refine .ite (fun _ => ?_) fun _ => .of_run (run_modify _ _) rfl
  refine (noAssert_freeMapRelease hlive _ _).bind fun _ v hv => ?_
  refine (noAssert_freeMapRelease (hlive.congr hv) _ _).bind fun _ w hw => .of_run (run_modify _ _) ?_
  have hwv := held_of_handles hw
  have hvu := held_of_handles hv
  exact hwv.trans hvu

theorem noAssert_inodeClose (h : Counted s (i :: refs)) (hm : MapLive s) :
    NoAssert (inodeClose (some i)) s fun _ t => Counted t refs ∧ t.held = s.held := by
  obtain ⟨n, hn⟩ := h.ref_inode mem_cons_self
  exact ((noAssert_close hn hm).and_ok fun _ t hrun => h.inodeClose hrun).mono fun _ _ h => h.symm

theorem noAssert_inodeOpen (h : Counted s refs) (sector : ℕ) :
    NoAssert (inodeOpen sector) s fun r t => Counted t (r.toList ++ refs) ∧ t.held = s.held := by
  have hheld : NoAssert (inodeOpen sector) s fun _ t => t.held = s.held := by
    refine .bind_run (run_get s) ?_
    rcases openLoop_run sector (fun i hi => (h.mem_iff i).1 hi) s.openInodes (List.Subset.refl _) with
      ⟨i, n, hloop, -, hn, -⟩ | ⟨hloop, -⟩
    · exact .bind_run hloop (.of_run (inodeReopen_run hn) rfl)
    · refine .bind_run hloop ?_
      refine ((quiet_malloc s).and_keeps (keeps_malloc (v := Fs.held) fun _ _ => rfl)).bind fun _ t ht => ?_
      refine .ite (fun _ => ?_) fun _ => .pure ht.2
      refine ((quiet_blockRead sector t).and_keeps (keeps_blockRead (v := Fs.held) sector)).bind fun _ u hu => ?_
      exact .bind_run (run_get _) (.bind_run (run_set _ _) (.pure (hu.2.trans ht.2)))
  exact (hheld.and_ok fun r t hrun => h.inodeOpen hrun).mono fun _ _ h => h.symm

/-! ## Directories -/

theorem noAssert_dirOpen {inode : Option ℕ} (h : Counted s (inode.toList ++ refs)) (hm : MapLive s) :
    NoAssert (dirOpen inode) s fun r t => Counted t (r.toList.map Dir.inode ++ refs) ∧ t.held = s.held := by
  refine ((quiet_malloc s).and_keeps (keeps_malloc (v := Fs.handles) fun _ _ => rfl)).bind fun found t ht => ?_
  have ht' := h.congr_handles ht.2
  have hheld := held_of_handles ht.2
  cases inode with
  | none => exact .bind_run rfl (.pure ⟨ht', hheld⟩)
  | some i =>
    cases found with
    | true => exact .pure ⟨ht', hheld⟩
    | false =>
      exact (noAssert_inodeClose ht' (hm.congr ht.2)).bind fun _ u hu => .pure ⟨hu.1, hu.2.trans hheld⟩

theorem noAssert_dirOpenRoot (h : Counted s refs) (hm : MapLive s) :
    NoAssert dirOpenRoot s fun r t => Counted t (r.toList.map Dir.inode ++ refs) ∧ t.held = s.held :=
  (noAssert_inodeOpen h 1).bind fun _ _ ht => (noAssert_dirOpen ht.1 (ht.1.mapLive_congr hm ht.2)).mono fun _ _ hu =>
    ⟨hu.1, hu.2.trans ht.2⟩

theorem noAssert_scanLoop (p : DirEntry → Bool) : ∀ (fuel ofs : ℕ) (e : List UInt8) {s : Fs}, (∃ n, s.inodes.get i = some n) →
    NoAssert (scanLoop i p fuel ofs e) s fun _ t => t.handles = s.handles
  | 0, _, _, _, _ => .throw nofun
  | fuel + 1, ofs, e, s, ⟨n, hn⟩ => by
    refine (noAssert_inodeReadAt hn 20 ofs).bind fun bytes t ht => ?_
    have hn' : t.inodes.get i = some n := (Prod.mk.inj (Prod.mk.inj (Prod.mk.inj ht).1).2).1 ▸ hn
    refine .ite (fun _ => .ite (fun _ => .pure ht) fun _ => ?_) fun _ => .pure ht
    exact (noAssert_scanLoop p fuel (ofs + 20) _ ⟨n, hn'⟩).mono fun _ _ hu => hu.trans ht

variable {dir : Dir}

theorem noAssert_scanDir (hn : s.inodes.get dir.inode = some n) (p : DirEntry → Bool) :
    NoAssert (scanDir dir p) s fun _ t => t.handles = s.handles :=
  .bind_run (getInode_run hn) (noAssert_scanLoop p _ _ _ ⟨n, hn⟩)

theorem noAssert_lookup (hn : s.inodes.get dir.inode = some n) (name : Name) :
    NoAssert (lookup dir name) s fun _ t => t.handles = s.handles :=
  (noAssert_scanDir hn _).bind fun _ _ ht => .pure ht

theorem noAssert_dirLookup (h : Counted s (dir.inode :: refs)) (name : Name) :
    NoAssert (dirLookup dir name) s fun r t => Counted t (r.toList ++ dir.inode :: refs) ∧ t.held = s.held := by
  obtain ⟨n, hn⟩ := h.ref_inode mem_cons_self
  refine (noAssert_lookup hn name).bind fun found t ht => ?_
  have ht' := h.congr_handles ht
  cases found with
  | none => exact .pure ⟨ht', held_of_handles ht⟩
  | some r => exact (noAssert_inodeOpen ht' _).mono fun _ _ hu => ⟨hu.1, hu.2.trans (held_of_handles ht)⟩

theorem noAssert_dirAdd (h : Counted s (dir.inode :: refs)) (name : Name) (sector : ℕ) :
    NoAssert (dirAdd dir name sector) s fun _ t => t.handles = s.handles := by
  have hlive : ∀ {t : Fs}, t.handles = s.handles → ∃ n, t.inodes.get dir.inode = some n := fun ht =>
    (h.congr_handles ht).ref_inode mem_cons_self
  obtain ⟨n, hn⟩ := hlive rfl
  refine .ite (fun _ => .pure rfl) fun _ => (noAssert_lookup hn name).bind fun found t ht => ?_
  cases found with
  | some _ => exact .pure ht
  | none =>
    obtain ⟨n', hn'⟩ := hlive ht
    refine (noAssert_scanDir hn' _).bind fun r u hu => ?_
    obtain ⟨n'', hn''⟩ := hlive (hu.trans ht)
    exact (noAssert_inodeWriteAt hn'' _ _ _).bind fun _ v hv => .pure (hv.trans (hu.trans ht))

theorem noAssert_dirRemove (h : Counted s (dir.inode :: refs)) (hm : MapLive s) (name : Name) :
    NoAssert (dirRemove dir name) s fun _ t => Counted t (dir.inode :: refs) ∧ t.held = s.held := by
  obtain ⟨n, hn⟩ := h.ref_inode mem_cons_self
  refine (noAssert_lookup hn name).bind fun found t ht => ?_
  have ht' := h.congr_handles ht
  have hheld := held_of_handles ht
  cases found with
  | none => exact .pure ⟨ht', hheld⟩
  | some r =>
    refine (noAssert_inodeOpen ht' _).bind fun inode u hu => ?_
    have hus := hu.2.trans hheld
    cases inode with
    | none => exact .pure ⟨hu.1, hus⟩
    | some i =>
      have hc : Counted u (i :: dir.inode :: refs) := hu.1
      obtain ⟨d, hd⟩ := hc.ref_inode (mem_cons_of_mem _ mem_cons_self)
      refine (noAssert_inodeWriteAt hd _ _ _).bind fun written v hv => ?_
      have hcv := hc.congr_handles hv
      have hvs := (held_of_handles hv).trans hus
      have hclose : ∀ {w : Fs} (b : Bool), Counted w (i :: dir.inode :: refs) → w.held = s.held →
          NoAssert (do inodeClose (some i); pure b) w fun _ t => Counted t (dir.inode :: refs) ∧ t.held = s.held := by
        intro w b hw hws
        refine (noAssert_inodeClose hw (hw.mapLive_congr hm hws)).bind fun _ x hx => ?_
        exact .pure ⟨hx.1, hx.2.trans hws⟩
      refine .ite (fun _ => ?_) fun _ => hclose false hcv hvs
      obtain ⟨k, hk⟩ := hcv.ref_inode mem_cons_self
      refine .bind_run (inodeRemove_run hk) (hclose true (hcv.remove hk) hvs)

/-! ## Files -/

/-- A file more is open, if one was opened. -/
def NewFile (s t : Fs) : Option ℕ → Prop
  | none => t.held = s.held
  | some k => s.files.get k = none ∧ (∃ f, t.files.get k = some f) ∧ (∀ j ≠ k, t.files.get j = s.files.get j) ∧
      t.freeMapFile = s.freeMapFile

theorem noAssert_fileOpen {inode : Option ℕ} (h : Counted s (inode.toList ++ refs)) (hm : MapLive s) :
    NoAssert (fileOpen inode) s fun r t => Counted t refs ∧ NewFile s t r := by
  refine ((quiet_malloc s).and_keeps (keeps_malloc (v := Fs.handles) fun _ _ => rfl)).bind fun found t ht => ?_
  have ht' := h.congr_handles ht.2
  have hheld := held_of_handles ht.2
  cases inode with
  | none => exact .bind_run rfl (.pure ⟨ht', hheld⟩)
  | some i =>
    cases found with
    | true =>
      refine .bind_run (run_get _) (.bind_run (run_set _ _) (.pure ⟨ht'.openFile, ?_⟩))
      obtain ⟨hfiles, hmap⟩ := Prod.mk.inj hheld
      refine ⟨?_, ⟨_, Heap.get_alloc_self⟩, fun j hj => (Heap.get_alloc_of_ne hj).trans (by rw [hfiles]), hmap⟩
      rw [← hfiles]
      exact t.files.get_next _ le_rfl
    | false =>
      exact (noAssert_inodeClose ht' (hm.congr ht.2)).bind fun _ u hu => .pure ⟨hu.1, hu.2.trans hheld⟩

theorem files_of_fileAllowWrite (hf : s.files.get file = some f)
    (hrun : (fileAllowWrite file).run s = .ok ((), t)) :
    (∀ k ≠ file, t.files.get k = s.files.get k) ∧ t.freeMapFile = s.freeMapFile := by
  unfold fileAllowWrite inodeAllowWrite at hrun
  rw [run_bind_ok (getFile_run hf)] at hrun
  split_ifs at hrun with hw
  · rw [run_bind_ok (setFile_run _ _ _)] at hrun
    obtain ⟨m, u, hm, hrun⟩ := ok_of_run_bind hrun
    obtain ⟨-, rfl⟩ := ok_of_getInode hm
    split_ifs at hrun
    · obtain ⟨-, rfl⟩ := ok_inj hrun
      exact ⟨fun k hk => (Heap.get_set hf k).trans (if_neg hk), rfl⟩
    · cases hrun
  · obtain ⟨-, rfl⟩ := ok_inj hrun
    exact ⟨fun _ _ => rfl, rfl⟩

theorem noAssert_fileClose (h : Counted s refs) (hm : MapLive s) (hf : s.files.get file = some f) :
    NoAssert (fileClose file) s fun _ t => Counted t refs ∧ t.files.get file = none ∧
      (∀ k ≠ file, t.files.get k = s.files.get k) ∧ t.freeMapFile = s.freeMapFile := by
  obtain ⟨s1, hallow, h1, hset⟩ := h.fileAllowWrite hf
  have hf1 : s1.files.get file = some { f with denyWrite := false } := by rw [hset, Heap.get_set hf, if_pos rfl]
  obtain ⟨hfiles, hmap⟩ := files_of_fileAllowWrite hf hallow
  obtain ⟨n, hn⟩ := h1.file_inode hf1
  have hm1 : MapLive s1 := by
    obtain ⟨m, g, -, hgm, hg, -⟩ := hm
    obtain ⟨g', hg'⟩ : ∃ g', s1.files.get m = some g' := by
      by_cases hmf : m = file
      · exact ⟨_, hmf ▸ hf1⟩
      · exact ⟨g, (hfiles m hmf).trans hg⟩
    obtain ⟨n', hn'⟩ := h1.file_inode hg'
    exact ⟨m, g', n', hmap.trans hgm, hg', hn'⟩
  have hclose : NoAssert (fileClose file) s fun _ t => t.files.get file = none ∧
      (∀ k ≠ file, t.files.get k = s.files.get k) ∧ t.freeMapFile = s.freeMapFile := by
    refine .bind_run hallow (.bind_run (getFile_run hf1) ((noAssert_close hn hm1).bind fun _ t ht => ?_))
    obtain ⟨htf, htm⟩ := Prod.mk.inj ht
    refine .of_run (run_modify _ _) ⟨(Heap.get_free _ _ _).trans (if_pos rfl), fun k hk => ?_, htm.trans hmap⟩
    refine (Heap.get_free _ _ _).trans ((if_neg hk).trans ?_)
    rw [htf]
    exact hfiles k hk
  exact (hclose.and_ok fun _ t hrun => (h.fileClose hf hrun).1).mono fun _ _ h => h.symm

/-- The same files are open, perhaps elsewhere in their inodes. -/
structure SameOpen (s t : Fs) : Prop where
  live : ∀ k, (t.files.get k).isSome = (s.files.get k).isSome
  map : t.freeMapFile = s.freeMapFile

section

variable (h : Counted s refs) (hf : s.files.get file = some f)
include h hf

theorem noAssert_moveFile (ht : t.handles = s.handles) (pos : ℕ) :
    NoAssert (setFile file { f with pos }) t fun _ u => Counted u refs ∧ SameOpen s u := by
  obtain ⟨hfiles, hmap⟩ := Prod.mk.inj (held_of_handles ht)
  have hf' : t.files.get file = some f := hfiles ▸ hf
  refine .of_run (setFile_run _ _ _) ⟨(h.congr_handles ht).moveFile hf', fun k => ?_, hmap⟩
  change ((t.files.set file _).get k).isSome = _
  rw [Heap.get_set hf', ← hfiles]
  split_ifs with hk
  · rw [hk, hf']
    rfl
  · rfl

theorem noAssert_fileRead (size : ℤ) :
    NoAssert (fileRead file size) s fun _ t => Counted t refs ∧ SameOpen s t := by
  obtain ⟨n, hn⟩ := h.file_inode hf
  refine .bind_run (getFile_run hf) ((noAssert_inodeReadAt hn size f.pos).bind fun bytes t ht => ?_)
  exact (noAssert_moveFile h hf ht _).bind fun _ _ hu => .pure hu

theorem noAssert_fileWrite (buffer : ℕ → UInt8) (size : ℤ) :
    NoAssert (fileWrite file buffer size) s fun _ t => Counted t refs ∧ SameOpen s t := by
  obtain ⟨n, hn⟩ := h.file_inode hf
  refine .bind_run (getFile_run hf) ((noAssert_inodeWriteAt hn buffer size f.pos).bind fun written t ht => ?_)
  exact (noAssert_moveFile h hf ht _).bind fun _ _ hu => .pure hu

theorem noAssert_fileSeek {newPos : ℤ} (hpos : 0 ≤ newPos) :
    NoAssert (fileSeek file newPos) s fun _ t => Counted t refs ∧ SameOpen s t := by
  refine .bind_run (getFile_run hf) (.ite (fun hneg => absurd hneg (Int.not_lt.2 hpos)) fun _ => ?_)
  exact noAssert_moveFile h hf rfl _

theorem noAssert_fileLength :
    NoAssert (fileLength file) s fun _ t => t = s := by
  obtain ⟨n, hn⟩ := h.file_inode hf
  exact .bind_run (getFile_run hf) (.bind_run (getInode_run hn) (.pure rfl))

end

theorem noAssert_fileTell (hf : s.files.get file = some f) : NoAssert (fileTell file) s fun _ t => t = s :=
  .bind_run (getFile_run hf) (.pure rfl)

/-! ## The file system -/

theorem noAssert_filesysCreate (h : Counted s refs) (hm : MapLive s) (name : Name) {size : ℤ} (hsize : 0 ≤ size) :
    NoAssert (filesysCreate name size) s fun _ t => Counted t refs ∧ t.held = s.held := by
  refine (noAssert_dirOpenRoot h hm).bind fun dir t ht => ?_
  cases dir with
  | none => exact .pure ht
  | some d =>
    have hc : Counted t (d.inode :: refs) := ht.1
    have hclose : ∀ {w : Fs} (b : Bool), w.handles = t.handles →
        NoAssert (do dirClose (some d); pure b) w fun _ u => Counted u refs ∧ u.held = s.held := by
      intro w b hw
      have hcw := hc.congr_handles hw
      refine (noAssert_inodeClose hcw (hcw.mapLive_congr hm ((held_of_handles hw).trans ht.2))).bind fun _ x hx => ?_
      exact .pure ⟨hx.1, hx.2.trans ((held_of_handles hw).trans ht.2)⟩
    have hmt : MapLive t := hc.mapLive_congr hm ht.2
    refine (noAssert_freeMapAllocate hmt 1).bind fun allocated u hu => ?_
    cases allocated with
    | none => exact hclose false hu
    | some k =>
      have hadd : NoAssert (createAndAdd d name k size) u fun _ v => v.handles = u.handles := by
        refine (noAssert_inodeCreate (hmt.congr hu) k hsize).bind fun created v hv => .ite (fun _ => ?_) fun _ => .pure hv
        exact (noAssert_dirAdd (hc.congr_handles (hv.trans hu)) name k).mono fun _ _ hw => hw.trans hv
      refine hadd.bind fun success v hv => ?_
      have hrel : NoAssert (releaseFailed success k) v fun _ w => w.handles = v.handles :=
        .ite (fun _ => noAssert_freeMapRelease (hmt.congr (hv.trans hu)) k 1) fun _ => .pure rfl
      exact hrel.bind fun _ w hw => hclose success (hw.trans (hv.trans hu))

theorem noAssert_filesysRemove (h : Counted s refs) (hm : MapLive s) (name : Name) :
    NoAssert (filesysRemove name) s fun _ t => Counted t refs ∧ t.held = s.held := by
  refine (noAssert_dirOpenRoot h hm).bind fun dir t ht => ?_
  cases dir with
  | none => exact .pure ht
  | some d =>
    refine (noAssert_dirRemove ht.1 (ht.1.mapLive_congr hm ht.2) name).bind fun success u hu => ?_
    have hus := hu.2.trans ht.2
    refine (noAssert_inodeClose hu.1 (hu.1.mapLive_congr hm hus)).bind fun _ v hv => .pure ⟨hv.1, hv.2.trans hus⟩

theorem NewFile.congr {r : Option ℕ} {u : Fs} (h : NewFile t u r) (ht : t.held = s.held) : NewFile s u r := by
  cases r with
  | none => exact Eq.trans h ht
  | some k =>
    obtain ⟨hfiles, hmap⟩ := Prod.mk.inj ht
    unfold NewFile at h ⊢
    rwa [hfiles, hmap] at h

theorem noAssert_filesysOpen (h : Counted s refs) (hm : MapLive s) (name : Name) :
    NoAssert (filesysOpen name) s fun r t => Counted t refs ∧ NewFile s t r := by
  refine (noAssert_dirOpenRoot h hm).bind fun dir t ht => ?_
  cases dir with
  | none =>
    have hopen : NoAssert (fileOpen none) t fun r u => Counted u refs ∧ NewFile t u r :=
      noAssert_fileOpen ht.1 (ht.1.mapLive_congr hm ht.2)
    exact hopen.mono fun _ _ hu => ⟨hu.1, hu.2.congr ht.2⟩
  | some d =>
    refine (noAssert_dirLookup ht.1 name).bind fun inode u hu => ?_
    have hus := hu.2.trans ht.2
    -- the directory is closed, the inode stays open
    have hc : Counted u (d.inode :: (inode.toList ++ refs)) := hu.1.perm perm_middle
    refine (noAssert_inodeClose hc (hc.mapLive_congr hm hus)).bind fun _ v hv => ?_
    have hvs := hv.2.trans hus
    exact (noAssert_fileOpen hv.1 (hv.1.mapLive_congr hm hvs)).mono fun _ _ hw => ⟨hw.1, hw.2.congr hvs⟩

/-! ## Open files -/

/-- The file `k` is opened. -/
structure OneMore (fs fs' : Fs) (k : ℕ) : Prop where
  counted : Counted fs' []
  fresh : fs.files.get k = none
  isOpen : (fs'.files.get k).isSome
  others : ∀ j ≠ k, (fs'.files.get j).isSome = (fs.files.get j).isSome
  map : fs'.freeMapFile = fs.freeMapFile

/-- The file `k` is closed. -/
structure OneLess (fs fs' : Fs) (k : ℕ) : Prop where
  counted : Counted fs' []
  closed : fs'.files.get k = none
  others : ∀ j ≠ k, (fs'.files.get j).isSome = (fs.files.get j).isSome
  map : fs'.freeMapFile = fs.freeMapFile

variable {fs fs' : Fs}

theorem sameOpen_of_held (h : fs'.held = fs.held) : SameOpen fs fs' := by
  obtain ⟨hfiles, hmap⟩ := Prod.mk.inj h
  exact ⟨fun k => by rw [hfiles], hmap⟩

variable {fs'' : Fs}

theorem SameOpen.trans (h : SameOpen fs fs') (h' : SameOpen fs' fs'') : SameOpen fs fs'' :=
  ⟨fun k => (h'.live k).trans (h.live k), h'.map.trans h.map⟩

variable {k : ℕ}

theorem OneMore.of_newFile (hc : Counted fs' []) (h : NewFile fs fs' (some k)) : OneMore fs fs' k := by
  obtain ⟨hfresh, ⟨g, hg⟩, hold, hmap⟩ := h
  exact ⟨hc, hfresh, Option.isSome_iff_exists.2 ⟨g, hg⟩, fun j hj => by rw [hold j hj], hmap⟩

theorem OneMore.congr (h : OneMore fs fs' k) (hc : Counted fs'' []) (hs : SameOpen fs' fs'') :
    OneMore fs fs'' k :=
  ⟨hc, h.fresh, (hs.live k).trans h.isOpen, fun j hj => (hs.live j).trans (h.others j hj), hs.map.trans h.map⟩

theorem OneLess.congr (h : OneLess fs fs' k) (hc : Counted fs'' []) (hs : SameOpen fs' fs'') :
    OneLess fs fs'' k where
  counted := hc
  closed := by
    have hk := hs.live k
    rw [h.closed] at hk
    exact Option.isSome_eq_false_iff.1 hk |> Option.isNone_iff_eq_none.1
  others j hj := (hs.live j).trans (h.others j hj)
  map := hs.map.trans h.map

theorem OneLess.of_same (hs : SameOpen fs fs') (h : OneLess fs' fs'' k) : OneLess fs fs'' k :=
  ⟨h.counted, h.closed, fun j hj => (h.others j hj).trans (hs.live j), h.map.trans hs.map⟩

theorem OneMore.close (h : OneMore fs fs' k) (h' : OneLess fs' fs'' k) : SameOpen fs fs'' where
  live j := by
    by_cases hj : j = k
    · rw [hj, h'.closed, h.fresh]
    · exact (h'.others j hj).trans (h.others j hj)
  map := h'.map.trans h.map

theorem noAssert_fileClose_oneLess (hc : Counted fs []) (hm : MapLive fs)
    (hf : fs.files.get k = some f) : NoAssert (fileClose k) fs fun _ fs' => OneLess fs fs' k :=
  (noAssert_fileClose hc hm hf).mono fun _ _ ⟨hc', hgone, hothers, hmap⟩ => ⟨hc', hgone, fun j hj => by rw [hothers j hj], hmap⟩

theorem mapLive_of_counted {m : ℕ} (hc : Counted fs []) (hmap : fs.freeMapFile = some m) (hm : (fs.files.get m).isSome) :
    MapLive fs := by
  obtain ⟨f, hf⟩ := Option.isSome_iff_exists.1 hm
  obtain ⟨n, hn⟩ := hc.file_inode hf
  exact ⟨m, f, n, hmap, hf, hn⟩

theorem SameOpen.mapLive (h : SameOpen fs fs') (hm : MapLive fs) (hc : Counted fs' []) : MapLive fs' := by
  obtain ⟨m, f, n, hm, hf, -⟩ := hm
  refine mapLive_of_counted hc (h.map.trans hm) ((h.live m).trans ?_)
  rw [hf]
  rfl

theorem OneMore.mapLive (h : OneMore fs fs' k) (hm : MapLive fs) : MapLive fs' := by
  obtain ⟨m, f, n, hm, hf, -⟩ := hm
  have hmk : m ≠ k := by
    rintro rfl
    rw [h.fresh] at hf
    cases hf
  refine mapLive_of_counted h.counted (h.map.trans hm) ((h.others m hmk).trans ?_)
  rw [hf]
  rfl

theorem OneLess.mapLive (h : OneLess fs fs' k) (hm : MapLive fs) (hk : fs.freeMapFile ≠ some k) : MapLive fs' := by
  obtain ⟨m, f, n, hm, hf, -⟩ := hm
  have hmk : m ≠ k := fun hmk => hk (hmk ▸ hm)
  refine mapLive_of_counted h.counted (h.map.trans hm) ((h.others m hmk).trans ?_)
  rw [hf]
  rfl

theorem sameOpen_setDeny (hf : s.files.get file = some f) (n : Inode) (denyWrite : Bool) (cnt : ℤ) :
    SameOpen s (s.setDeny file f n denyWrite cnt) where
  live k := by
    change ((s.files.set file _).get k).isSome = _
    rw [Heap.get_set hf]
    split_ifs with hk
    · rw [hk, hf]
      rfl
    · rfl
  map := rfl

theorem noAssert_fileDenyWrite (h : Counted s refs) (hf : s.files.get file = some f) :
    NoAssert (fileDenyWrite file) s fun _ t => Counted t refs ∧ SameOpen s t := by
  obtain ⟨n, hn⟩ := h.file_inode hf
  cases hw : f.denyWrite with
  | true =>
    refine .bind_run (getFile_run hf) ?_
    rw [hw]
    exact .pure ⟨h, fun _ => rfl, rfl⟩
  | false =>
    refine .of_run (fileDenyWrite_run hf hn hw (h.denyWriteCnt_lt hf hn hw)) ⟨h.setDeny hf hn (by rw [hw]; simp), ?_⟩
    exact sameOpen_setDeny hf n true _

theorem noAssert_fileAllowWrite (h : Counted s refs) (hf : s.files.get file = some f) :
    NoAssert (fileAllowWrite file) s fun _ t => Counted t refs ∧ SameOpen s t := by
  obtain ⟨n, hn⟩ := h.file_inode hf
  cases hw : f.denyWrite with
  | false => exact .of_run (fileAllowWrite_run_of_not hf hw) ⟨h, fun _ => rfl, rfl⟩
  | true =>
    have hpos : 0 < n.denyWriteCnt := by
      rw [h.denyWriteCnt_eq hn]
      exact_mod_cast fileDenials_pos hf hw
    refine .of_run (fileAllowWrite_run hf hn hw hpos (h.denyWriteCnt_le hn)) ⟨h.setDeny hf hn (by rw [hw]; simp), ?_⟩
    exact sameOpen_setDeny hf n false _

end Pintos
