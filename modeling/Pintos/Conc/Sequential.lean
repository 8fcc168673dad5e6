/-
  Without interruption.

  A call of the file system that no other process interrupts is the call of Fs/.  Where the
  programs of Requests.lean read state again, it is the same then: the loops change the device and
  take memory only (`Keeps`).
-/
import Pintos.Conc.Requests
import Pintos.Fs.Frame

namespace Pintos.Conc

open Lib Prog List

variable {s t : Fs} {i file : ℕ} {n : Inode} {f : File} {junk : ℕ → InodeDisk}

/-! ## Reading and writing -/

@[simp] theorem run_fail {σ ε α : Type} (e : ε) : (Co.fail e : Co σ ε α).run = throw e := rfl

@[simp] theorem run_blockRead (sector : ℕ) : (blockRead sector).run = Pintos.blockRead sector := Co.run_request _

@[simp] theorem run_blockWrite (sector : ℕ) (buffer : List UInt8) :
    (blockWrite sector buffer).run = Pintos.blockWrite sector buffer := Co.run_request _

theorem run_readLoop : ∀ (fuel : ℕ) (bounce : Bool) (size : ℤ) (offset : ℕ) (buffer : List UInt8) (s : Fs),
    s.inodes.get i = some n →
    (readLoop i fuel bounce size offset buffer).run.run s = (Pintos.readLoop n fuel bounce size offset buffer).run s
  | 0, _, size, _, buffer, s, _ => by
    unfold readLoop Pintos.readLoop
    rw [Co.run_ite]
    rfl
  | fuel + 1, bounce, size, offset, buffer, s, hn => by
    unfold readLoop Pintos.readLoop
    by_cases hsize : 0 < size
    · rw [if_pos hsize, if_pos hsize, Co.run_bind, Co.run_atomic, run_bind_ok (getInode_run hn)]
      simp only [Co.run_ite, Co.run_bind, Co.run_atomic, Co.run_pure, run_blockRead]
      split_ifs with hchunk hfull
      · rfl
      · refine run_bind_congr fun sector t ht => run_readLoop fuel _ _ _ _ t ?_
        exact (keeps_blockRead (v := fun s => s.inodes.get i) _ _ _ _ ht).trans hn
      · refine run_bind_congr fun found t ht => ?_
        have hn' : t.inodes.get i = some n :=
          (keeps_bounceBuffer (v := fun s => s.inodes.get i) (fun _ _ => rfl) _ _ _ _ ht).trans hn
        split_ifs
        · refine run_bind_congr fun sector u hu => run_readLoop fuel _ _ _ _ u ?_
          exact (keeps_blockRead (v := fun s => s.inodes.get i) _ _ _ _ hu).trans hn'
        · rfl
    · rw [if_neg hsize, if_neg hsize]
      rfl

@[simp] theorem run_inodeReadAt (i : ℕ) (size : ℤ) (offset : ℕ) :
    (inodeReadAt i size offset).run = Pintos.inodeReadAt i size offset := by
  funext s
  unfold inodeReadAt Pintos.inodeReadAt
  rw [Co.run_bind, Co.run_atomic]
  refine run_bind_congr fun n t ht => run_readLoop _ _ _ _ _ t ?_
  obtain ⟨hn, rfl⟩ := ok_of_getInode ht
  exact hn

/-- The buffer may depend on the free map, which a write does not change. -/
theorem run_writeLoop {buffer : Fs → ℕ → UInt8} {b : ℕ → UInt8} {map : Bitmap} (hb : ∀ s, s.freeMap = map → buffer s = b) :
    ∀ (fuel : ℕ) (bounce : Bool) (size : ℤ) (offset written : ℕ) (s : Fs),
    s.inodes.get i = some n → s.freeMap = map →
    (writeLoop i buffer fuel bounce size offset written).run.run s =
      (Pintos.writeLoop n b fuel bounce size offset written).run s
  | 0, _, size, _, written, s, _, _ => by
    unfold writeLoop Pintos.writeLoop
    rw [Co.run_ite]
    rfl
  | fuel + 1, bounce, size, offset, written, s, hn, hmap => by
    have hkeep : ∀ {α : Type} {x : FsM α} {a : α} {s t : Fs}, Prog.Keeps (fun s => (s.inodes, s.freeMap)) x →
        x.run s = .ok (a, t) → s.inodes.get i = some n → s.freeMap = map →
        t.inodes.get i = some n ∧ t.freeMap = map := by
      intro α x a s t hx hrun hn hmap
      obtain ⟨hi, hm⟩ := Prod.mk.inj (hx s a t hrun)
      exact ⟨hi ▸ hn, hm ▸ hmap⟩
    unfold writeLoop Pintos.writeLoop
    by_cases hsize : 0 < size
    · rw [if_pos hsize, if_pos hsize, Co.run_bind, Co.run_atomic, run_bind_ok (getInode_run hn)]
      simp only [Co.run_ite, Co.run_bind, Co.run_atomic, Co.run_pure, run_blockRead, run_blockWrite]
      by_cases hchunk : chunkSize n size offset ≤ 0
      · rw [if_pos hchunk, if_pos hchunk]
      rw [if_neg hchunk, if_neg hchunk]
      by_cases hfull : offset % 512 = 0 ∧ chunkSize n size offset = 512
      · rw [if_pos hfull, if_pos hfull, run_bind_get, hb s hmap]
        refine run_bind_congr fun _ t ht => ?_
        obtain ⟨hn', hmap'⟩ := hkeep (keeps_blockWrite (fun _ _ => rfl) _ _) ht hn hmap
        exact run_writeLoop hb fuel _ _ _ _ t hn' hmap'
      rw [if_neg hfull, if_neg hfull]
      refine run_bind_congr fun found t ht => ?_
      obtain ⟨hn1, hmap1⟩ := hkeep (keeps_bounceBuffer (fun _ _ => rfl) _) ht hn hmap
      cases found with
      | false => rfl
      | true =>
        rw [if_pos rfl, if_pos rfl]
        -- the sector is read, or is a new one
        split_ifs
        all_goals
          refine run_bind_congr fun sector u hu => ?_
          have hread : u.inodes.get i = some n ∧ u.freeMap = map := by
            first
            | exact hkeep (keeps_blockRead _) hu hn1 hmap1
            | exact hkeep (keeps_pure _) hu hn1 hmap1
          rw [run_bind_get, hb u hread.2]
          refine run_bind_congr fun _ w hw => ?_
          obtain ⟨hn2, hmap2⟩ := hkeep (keeps_blockWrite (fun _ _ => rfl) _ _) hw hread.1 hread.2
          exact run_writeLoop hb fuel _ _ _ _ w hn2 hmap2
    · rw [if_neg hsize, if_neg hsize]
      rfl

theorem run_inodeWriteAt_run {buffer : Fs → ℕ → UInt8} {b : ℕ → UInt8} (hb : ∀ t, t.freeMap = s.freeMap → buffer t = b)
    (i : ℕ) (size : ℤ) (offset : ℕ) :
    (inodeWriteAt i buffer size offset).run.run s = (Pintos.inodeWriteAt i b size offset).run s := by
  unfold inodeWriteAt Pintos.inodeWriteAt
  rw [Co.run_bind, Co.run_atomic]
  refine run_bind_congr fun n t ht => ?_
  obtain ⟨hn, rfl⟩ := ok_of_getInode ht
  split_ifs
  · rfl
  · exact run_writeLoop hb _ _ _ _ _ t hn rfl

@[simp] theorem run_inodeWriteAt (i : ℕ) (b : ℕ → UInt8) (size : ℤ) (offset : ℕ) :
    (inodeWriteAt i (fun _ => b) size offset).run = Pintos.inodeWriteAt i b size offset := by
  funext s
  exact run_inodeWriteAt_run (fun _ _ => rfl) i size offset

@[simp] theorem run_fileRead (file : ℕ) (size : ℤ) : (fileRead file size).run = Pintos.fileRead file size := by
  funext s
  unfold fileRead Pintos.fileRead
  simp only [Co.run_bind, Co.run_atomic, Co.run_pure, run_inodeReadAt]
  refine run_bind_congr fun f t ht => ?_
  obtain ⟨hf, rfl⟩ := ok_of_getFile ht
  refine run_bind_congr fun bytes u hu => ?_
  have hf' : u.files.get file = some f :=
    (keeps_inodeReadAt (v := fun s => s.files.get file) (fun _ _ => rfl) _ _ _ _ _ _ hu).trans hf
  rw [bind_assoc, run_bind_ok (getFile_run hf')]

@[simp] theorem run_fileWrite (file : ℕ) (b : ℕ → UInt8) (size : ℤ) : (fileWrite file b size).run = Pintos.fileWrite file b size := by
  funext s
  unfold fileWrite Pintos.fileWrite
  simp only [Co.run_bind, Co.run_atomic, Co.run_pure, run_inodeWriteAt]
  refine run_bind_congr fun f t ht => ?_
  obtain ⟨hf, rfl⟩ := ok_of_getFile ht
  refine run_bind_congr fun written u hu => ?_
  have hf' : u.files.get file = some f :=
    (keeps_inodeWriteAt (v := fun s => s.files.get file) (fun _ _ => rfl) (fun _ _ => rfl) _ _ _ _ _ _ _ hu).trans hf
  rw [bind_assoc, run_bind_ok (getFile_run hf')]

/-! ## The free map and inodes -/

theorem run_bitmapWrite (file : ℕ) : (bitmapWrite file).run = Pintos.bitmapWrite file := by
  apply StateT.ext
  intro s
  unfold bitmapWrite Pintos.bitmapWrite fileWriteAt Pintos.fileWriteAt
  simp only [Co.run_bind, Co.run_atomic, Co.run_pure, bind_assoc]
  rw [run_bind_get, run_bind_get]
  refine run_bind_congr fun f t ht => ?_
  obtain ⟨-, rfl⟩ := ok_of_getFile ht
  rw [StateT.run_bind, StateT.run_bind, run_inodeWriteAt_run fun u hu => by rw [hu]]

@[simp] theorem run_freeMapAllocate (cnt : ℕ) : (freeMapAllocate cnt).run = Pintos.freeMapAllocate cnt := by
  unfold freeMapAllocate Pintos.freeMapAllocate
  simp only [Co.run_bind, Co.run_atomic, bind_assoc, pure_bind]
  refine bind_congr fun flipped => bind_congr fun _ => ?_
  cases flipped.1 with
  | none => rfl
  | some sector =>
    rw [Co.run_bind, Co.run_atomic]
    refine bind_congr fun s => ?_
    cases s.freeMapFile with
    | none => rfl
    | some file => simp only [Co.run_bind, Co.run_ite, Co.run_atomic, Co.run_pure, run_bitmapWrite, bind_assoc]

@[simp] theorem run_freeMapRelease (sector cnt : ℕ) : (freeMapRelease sector cnt).run = Pintos.freeMapRelease sector cnt := by
  unfold freeMapRelease Pintos.freeMapRelease clearBits
  simp only [Co.run_bind, Co.run_atomic, bind_assoc]
  refine bind_congr fun all => ?_
  cases all with
  | false => rfl
  | true =>
    rw [if_pos rfl, if_pos rfl]
    simp only [bind_assoc]
    refine bind_congr fun b => bind_congr fun _ => bind_congr fun s => ?_
    cases s.freeMapFile with
    | none => rfl
    | some file => rw [Co.run_bind, run_bitmapWrite]; rfl

@[simp] theorem run_zeroLoop (start : ℕ) : ∀ n i, (zeroLoop start n i).run = Pintos.zeroLoop start n i
  | 0, _ => rfl
  | n + 1, i => by
    unfold zeroLoop Pintos.zeroLoop
    rw [Co.run_bind, run_blockWrite, run_zeroLoop start n (i + 1)]

@[simp] theorem run_inodeCreate (sector : ℕ) (length : ℤ) : (inodeCreate sector length).run = Pintos.inodeCreate sector length := by
  unfold inodeCreate Pintos.inodeCreate
  rw [Co.run_ite, run_fail]
  congr 1
  simp only [Co.run_bind, Co.run_atomic, Co.run_ite, Co.run_pure, run_freeMapAllocate]
  refine bind_congr fun found => ?_
  congr 1
  refine bind_congr fun allocated => ?_
  cases allocated with
  | none => rfl
  | some start => simp only [Co.run_bind, Co.run_pure, run_blockWrite, run_zeroLoop]

theorem set_alloc {α : Type} (h : Heap α) (a b : α) : (h.alloc a).set h.next b = h.alloc b := by
  unfold Heap.set
  rw [dif_pos (show h.next < (h.alloc a).next from Nat.lt_succ_self _)]
  unfold Heap.put Heap.alloc
  congr 1
  exact Function.update_idem ..

theorem readInode_new {d : InodeDisk} (s : Fs) (sector : ℕ) :
    (do readInode s.inodes.next sector; pure (some s.inodes.next) : FsM (Option ℕ)).run
      (s.withInodes (s.inodes.next :: s.openInodes) (s.inodes.alloc ⟨sector, 1, false, 0, d⟩)) =
    (do
      let data ← Pintos.blockRead sector
      let s ← get
      set (s.withInodes (s.inodes.next :: s.openInodes)
        (s.inodes.alloc ⟨sector, 1, false, 0, InodeDisk.ofBytes data⟩))
      pure (some s.inodes.next) : FsM (Option ℕ)).run s := by
  let u := s.withInodes (s.inodes.next :: s.openInodes) (s.inodes.alloc ⟨sector, 1, false, 0, d⟩)
  unfold readInode
  by_cases hlt : sector < s.size
  · rw [bind_assoc, run_bind_ok (blockRead_run hlt), run_bind_ok (blockRead_run (s := u) hlt), bind_assoc,
      run_bind_ok (getInode_run Heap.get_alloc_self), run_bind_ok (setInode_run _ _ _)]
    exact congrArg (fun h => Except.ok (some s.inodes.next, s.withInodes (s.inodes.next :: s.openInodes) h)) (set_alloc ..)
  · unfold Pintos.blockRead
    simp only [bind_assoc]
    rw [run_bind_get, run_bind_get, if_neg hlt, if_neg (show ¬ sector < u.size from hlt)]
    rfl

@[simp] theorem run_inodeOpen (sector : ℕ) : (inodeOpen junk sector).run = Pintos.inodeOpen sector := by
  unfold inodeOpen Pintos.inodeOpen enlist
  simp only [Co.run_bind, Co.run_atomic, bind_assoc]
  refine bind_congr fun s => bind_congr fun already => ?_
  cases already with
  | some i =>
    simp only [bind_assoc, pure_bind, inodeReopen]
    rfl
  | none =>
    simp only [bind_assoc]
    refine bind_congr fun found => ?_
    cases found with
    | false => rfl
    | true =>
      rw [if_pos rfl, if_pos rfl]
      simp only [bind_assoc, pure_bind, Co.run_bind, Co.run_request, Co.run_pure]
      apply StateT.ext
      intro s
      exact readInode_new s sector

@[simp] theorem run_inodeClose (o : Option ℕ) : (inodeClose o).run = Pintos.inodeClose o := by
  cases o with
  | none => rfl
  | some i =>
    unfold inodeClose Pintos.inodeClose dropRef
    simp only [Co.run_bind, Co.run_atomic, bind_assoc]
    refine bind_congr fun n => bind_congr fun _ => ?_
    by_cases hlast : n.openCnt - 1 = 0
    · rw [if_pos hlast, if_pos hlast, bind_assoc]
      simp only [pure_bind, Co.run_ite, Co.run_bind, Co.run_atomic, run_freeMapRelease]
      rfl
    · rw [if_neg hlast, if_neg hlast]
      rfl

/-! ## The directory -/

theorem length_readLoop : ∀ {fuel : ℕ} {bounce : Bool} {size : ℤ} {offset : ℕ} {buffer r : List UInt8} {s t : Fs},
    (Pintos.readLoop n fuel bounce size offset buffer).run s = .ok (r, t) →
    r.length ≤ buffer.length + (n.data.length - offset).toNat
  | 0, _, size, offset, buffer, r, s, t, h => by
    unfold Pintos.readLoop at h
    split_ifs at h
    · cases h
    · obtain ⟨rfl, -⟩ := ok_inj h
      omega
  | fuel + 1, bounce, size, offset, buffer, r, s, t, h => by
    unfold Pintos.readLoop at h
    dsimp only at h
    -- a turn of the loop adds at most the chunk, which lies in the file
    have turn : ∀ {b l u v}, 0 < size → ¬ chunkSize n size offset ≤ 0 → l.length ≤ (chunkSize n size offset).toNat →
        (Pintos.readLoop n fuel b (size - chunkSize n size offset) (offset + (chunkSize n size offset).toNat)
          (buffer ++ l)).run u = .ok (r, v) → r.length ≤ buffer.length + (n.data.length - offset).toNat := by
      intro b l u v hsize hchunk hl hrun
      have hofs : (offset : ℤ) < n.data.length := by
        by_contra hofs
        exact hchunk (chunkSize_nonpos (by omega))
      have hle := (chunkSize_spec hsize hofs).2.2.1
      have hrest := length_readLoop hrun
      rw [length_append] at hrest
      omega
    split_ifs at h with hsize hchunk hfull
    · obtain ⟨rfl, -⟩ := ok_inj h
      omega
    · obtain ⟨sector, u, hread, hrest⟩ := ok_of_run_bind h
      exact turn hsize hchunk (by rw [length_blockRead hread, hfull.2]; rfl) hrest
    · obtain ⟨found, u, -, hrest⟩ := ok_of_run_bind h
      split_ifs at hrest
      · obtain ⟨sector, w, -, hrest⟩ := ok_of_run_bind hrest
        exact turn hsize hchunk (length_take_le _ _) hrest
      · obtain ⟨rfl, -⟩ := ok_inj hrest
        omega
    · obtain ⟨rfl, -⟩ := ok_inj h
      omega

theorem scanLoop_fuel (p : DirEntry → Bool) (k : ℕ) : ∀ {fuel ofs : ℕ} {e : List UInt8} {s : Fs},
    s.inodes.get i = some n → (n.data.length.toNat - ofs) / 20 + 1 ≤ fuel →
    (Pintos.scanLoop i p (fuel + k) ofs e).run s = (Pintos.scanLoop i p fuel ofs e).run s
  | 0, _, _, _, _, hle => absurd hle (by omega)
  | fuel + 1, ofs, e, s, hn, hle => by
    rw [Nat.succ_add]
    refine run_bind_congr fun bytes t ht => ?_
    dsimp only
    split_ifs with h20 hp
    · rfl
    · have hn' : t.inodes.get i = some n :=
        (keeps_inodeReadAt (v := fun s => s.inodes.get i) (fun _ _ => rfl) _ _ _ _ _ _ ht).trans hn
      have hlen : ofs + 20 ≤ n.data.length.toNat := by
        unfold Pintos.inodeReadAt at ht
        rw [run_bind_ok (getInode_run hn)] at ht
        have := length_readLoop ht
        rw [length_nil, h20] at this
        omega
      exact scanLoop_fuel p k hn' (by omega)
    · rfl

theorem run_scanLoop (i : ℕ) (p : DirEntry → Bool) : ∀ (fuel ofs : ℕ) (e : List UInt8),
    (scanLoop i p fuel ofs e).run = Pintos.scanLoop i p fuel ofs e
  | 0, _, _ => rfl
  | fuel + 1, ofs, e => by
    unfold scanLoop Pintos.scanLoop
    simp only [Co.run_bind, Co.run_ite, Co.run_pure, run_inodeReadAt, run_scanLoop i p fuel]

@[simp] theorem run_scanDir (dir : Dir) (p : DirEntry → Bool) : (scanDir dir p).run = Pintos.scanDir dir p := by
  apply StateT.ext
  intro s
  unfold scanDir Pintos.scanDir
  rw [Co.run_bind, Co.run_atomic]
  refine run_bind_congr fun n t ht => ?_
  obtain ⟨hn, rfl⟩ := ok_of_getInode ht
  rw [run_scanLoop]
  exact scanLoop_fuel p _ hn le_rfl

@[simp] theorem run_lookup (dir : Dir) (name : Name) : (lookup dir name).run = Pintos.lookup dir name := by
  unfold lookup Pintos.lookup
  rw [Co.run_bind, run_scanDir]
  rfl

@[simp] theorem run_dirOpen (o : Option ℕ) : (dirOpen o).run = Pintos.dirOpen o := by
  unfold dirOpen Pintos.dirOpen
  rw [Co.run_bind, Co.run_atomic]
  refine bind_congr fun found => ?_
  cases o with
  | none => simp only [Co.run_bind, Co.run_pure, run_inodeClose]
  | some i =>
    cases found with
    | false => simp only [Co.run_bind, Co.run_pure, run_inodeClose]
    | true => rfl

@[simp] theorem run_dirOpenRoot : (dirOpenRoot junk).run = Pintos.dirOpenRoot := by
  unfold dirOpenRoot Pintos.dirOpenRoot
  simp only [Co.run_bind, run_inodeOpen, run_dirOpen]

@[simp] theorem run_dirClose (o : Option Dir) : (dirClose o).run = Pintos.dirClose o := by
  cases o with
  | none => rfl
  | some dir => exact run_inodeClose (some dir.inode)

@[simp] theorem run_dirLookup (dir : Dir) (name : Name) : (dirLookup junk dir name).run = Pintos.dirLookup dir name := by
  unfold dirLookup Pintos.dirLookup
  rw [Co.run_bind, run_lookup]
  refine bind_congr fun found => ?_
  cases found with
  | none => rfl
  | some e => exact run_inodeOpen _

@[simp] theorem run_dirAdd (dir : Dir) (name : Name) (sector : ℕ) : (dirAdd dir name sector).run = Pintos.dirAdd dir name sector := by
  unfold dirAdd Pintos.dirAdd
  rw [Co.run_ite, Co.run_bind, run_lookup]
  congr 1
  refine bind_congr fun found => ?_
  cases found with
  | some _ => rfl
  | none => simp only [Co.run_bind, Co.run_pure, run_scanDir, run_inodeWriteAt]

@[simp] theorem run_dirRemove (dir : Dir) (name : Name) : (dirRemove junk dir name).run = Pintos.dirRemove dir name := by
  unfold dirRemove Pintos.dirRemove
  rw [Co.run_bind, run_lookup]
  refine bind_congr fun found => ?_
  cases found with
  | none => rfl
  | some e =>
    simp only [Co.run_bind, run_inodeOpen]
    refine bind_congr fun inode => ?_
    cases inode with
    | none => rfl
    | some i => simp only [Co.run_bind, Co.run_ite, Co.run_atomic, Co.run_pure, run_inodeWriteAt, run_inodeClose]

/-! ## Files and the file system -/

@[simp] theorem run_fileOpen (o : Option ℕ) : (fileOpen o).run = Pintos.fileOpen o := by
  unfold fileOpen Pintos.fileOpen newFile
  simp only [Co.run_bind, Co.run_atomic, bind_assoc]
  refine bind_congr fun found => ?_
  cases o with
  | none =>
    change (inodeClose none >>= fun _ => pure none : FsCo (Option ℕ)).run = _
    rfl
  | some i =>
    cases found with
    | false =>
      change (inodeClose (some i) >>= fun _ => pure none : FsCo (Option ℕ)).run = _
      rw [Co.run_bind, run_inodeClose]
      rfl
    | true => rfl

@[simp] theorem run_fileClose (file : ℕ) : (fileClose file).run = Pintos.fileClose file := by
  unfold fileClose Pintos.fileClose
  simp only [Co.run_bind, Co.run_atomic, run_inodeClose]

@[simp] theorem run_filesysCreate (name : Name) (size : ℤ) : (filesysCreate junk name size).run = Pintos.filesysCreate name size := by
  unfold filesysCreate Pintos.filesysCreate
  rw [Co.run_bind, run_dirOpenRoot]
  refine bind_congr fun dir => ?_
  cases dir with
  | none => rfl
  | some dir =>
    simp only [Co.run_bind, run_freeMapAllocate]
    refine bind_congr fun allocated => ?_
    cases allocated with
    | none => simp only [Co.run_bind, Co.run_pure, run_dirClose]
    | some sector =>
      simp only [Co.run_bind, Co.run_pure, Co.run_ite, run_dirClose, createAndAdd, Pintos.createAndAdd, releaseFailed,
        Pintos.releaseFailed, run_inodeCreate, run_dirAdd, run_freeMapRelease]

@[simp] theorem run_filesysOpen (name : Name) : (filesysOpen junk name).run = Pintos.filesysOpen name := by
  unfold filesysOpen Pintos.filesysOpen
  rw [Co.run_bind, run_dirOpenRoot]
  refine bind_congr fun dir => ?_
  cases dir with
  | none => exact run_fileOpen none
  | some dir => simp only [Co.run_bind, run_dirLookup, run_dirClose, run_fileOpen]

@[simp] theorem run_filesysRemove (name : Name) : (filesysRemove junk name).run = Pintos.filesysRemove name := by
  unfold filesysRemove Pintos.filesysRemove
  rw [Co.run_bind, run_dirOpenRoot]
  refine bind_congr fun dir => ?_
  cases dir with
  | none => rfl
  | some dir => simp only [Co.run_bind, Co.run_pure, run_dirRemove, run_dirClose]

end Pintos.Conc
