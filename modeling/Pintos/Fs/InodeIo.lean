/-
  Reading and writing the data of an inode (`inode_read_at` and `inode_write_at` of inode.c).

  Both move the data sector by sector, whole sectors directly and the others through a bounce buffer, which
  is allocated when it is first needed; if there is no memory for it, the loop stops there, and what was
  moved before stays moved (`readLoop_exact`, `writeLoop_exact`).
-/
import Pintos.Fs.Device

namespace Pintos

open Lib Prog List

def byteToSector (inode : Inode) (pos : ℕ) : ℕ :=
  if (pos : ℤ) < inode.data.length then (inode.data.start + pos / 512) % 2 ^ 32 else 2 ^ 32 - 1

/-- `chunk_size` of both loops. -/
def chunkSize (inode : Inode) (size : ℤ) (offset : ℕ) : ℤ :=
  let sectorOfs : ℤ := (offset % 512 : ℕ)
  -- bytes left in inode, bytes left in sector, lesser of the two
  let inodeLeft := inode.data.length - offset
  let sectorLeft := 512 - sectorOfs
  let minLeft := if inodeLeft < sectorLeft then inodeLeft else sectorLeft
  if size < minLeft then size else minLeft

/-- The bounce buffer is allocated when it is first needed. -/
def bounceBuffer (bounce : Bool) : FsM Bool := if bounce then pure true else malloc

/-- The loop of `inode_read_at`; `buffer` holds what was read so far. -/
def readLoop (inode : Inode) : ℕ → Bool → ℤ → ℕ → List UInt8 → FsM (List UInt8)
  | 0, _, size, _, buffer => if 0 < size then throw .bound else pure buffer
  | fuel + 1, bounce, size, offset, buffer =>
    let sectorIdx := byteToSector inode offset
    let sectorOfs := offset % 512
    let chunk := chunkSize inode size offset
    if 0 < size then
      if chunk ≤ 0 then pure buffer
      else if sectorOfs = 0 ∧ chunk = 512 then do
        let sector ← blockRead sectorIdx
        readLoop inode fuel bounce (size - chunk) (offset + chunk.toNat) (buffer ++ sector)
      else do
        let found ← bounceBuffer bounce
        if found then do
          let sector ← blockRead sectorIdx
          readLoop inode fuel true (size - chunk) (offset + chunk.toNat)
            (buffer ++ (sector.drop sectorOfs).take chunk.toNat)
        else pure buffer
    else pure buffer

/-- `inode_read_at`: the bytes that were read. -/
def inodeReadAt (inode : ℕ) (size : ℤ) (offset : ℕ) : FsM (List UInt8) := do
  let n ← getInode inode
  readLoop n size.toNat false size offset []

/-- The loop of `inode_write_at`; `written` bytes of `buffer` are done. -/
def writeLoop (inode : Inode) (buffer : ℕ → UInt8) : ℕ → Bool → ℤ → ℕ → ℕ → FsM ℕ
  | 0, _, size, _, written => if 0 < size then throw .bound else pure written
  | fuel + 1, bounce, size, offset, written =>
    let sectorIdx := byteToSector inode offset
    let sectorOfs := offset % 512
    let chunk := chunkSize inode size offset
    if 0 < size then
      if chunk ≤ 0 then pure written
      else if sectorOfs = 0 ∧ chunk = 512 then do
        blockWrite sectorIdx (slice buffer written 512)
        writeLoop inode buffer fuel bounce (size - chunk) (offset + chunk.toNat) (written + chunk.toNat)
      else do
        let found ← bounceBuffer bounce
        if found then do
          -- keep the data before and behind the chunk
          let sector ← if 0 < sectorOfs ∨ chunk < 512 - sectorOfs then blockRead sectorIdx
            else pure (List.replicate 512 0)
          blockWrite sectorIdx (overwrite sector sectorOfs (slice buffer written chunk.toNat))
          writeLoop inode buffer fuel true (size - chunk) (offset + chunk.toNat) (written + chunk.toNat)
        else pure written
    else pure written

/-- `inode_write_at`: the number of bytes written. -/
def inodeWriteAt (inode : ℕ) (buffer : ℕ → UInt8) (size : ℤ) (offset : ℕ) : FsM ℕ := do
  let n ← getInode inode
  if n.denyWriteCnt ≠ 0 then pure 0 else writeLoop n buffer size.toNat false size offset 0

/-! ## What they compute -/

/-- The data of an inode lies inside the device. -/
structure InDevice (s : Fs) (d : InodeDisk) : Prop where
  length_nonneg : 0 ≤ d.length
  length_lt : d.length < 2 ^ 31
  data_le : d.start + sectorsOf d.length.toNat ≤ s.size
  size_lt : s.size < 2 ^ 32

/-- The number of bytes of a request that lie inside the file. -/
def within (length : ℤ) (size : ℤ) (offset : ℕ) : ℕ := min size.toNat (length.toNat - offset)

variable {s : Fs} {n : Inode} {size : ℤ} {offset : ℕ}

theorem chunkSize_nonpos (h : n.data.length ≤ offset) : chunkSize n size offset ≤ 0 := by
  unfold chunkSize
  dsimp only
  split_ifs <;> omega

theorem chunkSize_spec (hs : 0 < size) (h : (offset : ℤ) < n.data.length) :
    0 < chunkSize n size offset ∧ chunkSize n size offset ≤ size ∧
      chunkSize n size offset ≤ n.data.length - offset ∧
      chunkSize n size offset + (offset % 512 : ℕ) ≤ 512 := by
  unfold chunkSize
  dsimp only
  split_ifs <;> omega

theorem byteToSector_eq (hd : InDevice s n.data) (h : (offset : ℤ) < n.data.length) :
    byteToSector n offset = n.data.start + offset / 512 ∧ byteToSector n offset < s.size := by
  have h1 := hd.data_le
  have h2 := hd.size_lt
  unfold sectorsOf at h1
  unfold byteToSector
  rw [if_pos h, Nat.mod_eq_of_lt (by omega)]
  omega

theorem within_of_size_nonpos {len : ℤ} (h : ¬ 0 < size) : within len size offset = 0 := by
  unfold within; omega

theorem within_of_length_le {len : ℤ} (h : len ≤ offset) : within len size offset = 0 := by
  unfold within; omega

theorem within_sub {len : ℤ} {c : ℤ} (h0 : 0 < c) (h1 : c ≤ size) (h2 : c ≤ len - offset) :
    within len size offset = c.toNat + within len (size - c) (offset + c.toNat) := by
  unfold within; omega

/-! ## The bounce buffer -/

def Fs.withMemory (s : Fs) (memory : ℕ → Bool) : Fs := { s with memory }

theorem malloc_scarce (s : Fs) : malloc.run s = .ok (s.memory 0, s.withMemory fun n => s.memory (n + 1)) := rfl

/-- Some sector of the request is not moved as a whole. -/
def NeedsBounce (offset len : ℕ) : Prop := len ≠ 0 ∧ ¬ (offset % 512 = 0 ∧ len % 512 = 0)

instance (offset len : ℕ) : Decidable (NeedsBounce offset len) := inferInstanceAs (Decidable (_ ∧ _))

/-- The bytes that are moved of `len` bytes: all, or the whole sectors at their start. -/
def moved (bounce : Bool) (memory : ℕ → Bool) (offset len : ℕ) : ℕ :=
  if bounce = true ∨ memory 0 = true ∨ ¬ NeedsBounce offset len then len
  else if offset % 512 = 0 then 512 * (len / 512) else 0

/-- The answers of `malloc` that are left then. -/
def memoryLeft (bounce : Bool) (memory : ℕ → Bool) (offset len : ℕ) : ℕ → Bool :=
  if bounce = true ∨ ¬ NeedsBounce offset len then memory else fun n => memory (n + 1)

section
variable {b : Bool} {memory : ℕ → Bool} {offset len : ℕ}

theorem moved_le : moved b memory offset len ≤ len := by
  unfold moved
  split_ifs <;> omega

theorem moved_of_bounce (h : b = true ∨ memory 0 = true) : moved b memory offset len = len :=
  if_pos (h.imp id .inl)

@[simp] theorem moved_zero : moved b memory offset 0 = 0 := Nat.le_zero.1 moved_le

@[simp] theorem memoryLeft_zero : memoryLeft b memory offset 0 = memory := if_pos (.inr fun h => h.1 rfl)

@[simp] theorem memoryLeft_true : memoryLeft true memory offset len = memory := if_pos (.inl rfl)

theorem needsBounce_whole (h : offset % 512 = 0) : NeedsBounce offset (512 + len) ↔ NeedsBounce (offset + 512) len := by
  unfold NeedsBounce
  omega

theorem moved_whole (h : offset % 512 = 0) :
    moved b memory offset (512 + len) = 512 + moved b memory (offset + 512) len := by
  have hnext : (offset + 512) % 512 = 0 := by omega
  unfold moved
  simp only [needsBounce_whole h, h, hnext, if_true]
  split_ifs <;> omega

theorem memoryLeft_whole (h : offset % 512 = 0) :
    memoryLeft b memory offset (512 + len) = memoryLeft b memory (offset + 512) len := by
  unfold memoryLeft
  simp only [needsBounce_whole h]

theorem moved_none (h : NeedsBounce offset len) (hpart : offset % 512 ≠ 0 ∨ len < 512) (hmem : memory 0 = false) :
    moved false memory offset len = 0 := by
  unfold moved
  rw [if_neg (by simp [h, hmem])]
  split_ifs <;> omega

theorem memoryLeft_malloc (h : NeedsBounce offset len) :
    memoryLeft false memory offset len = fun n => memory (n + 1) := if_neg (by simp [h])

end

theorem chunkSize_cases (hs : 0 < size) (h : (offset : ℤ) < n.data.length) :
    (offset % 512 = 0 ∧ chunkSize n size offset = 512) ∨
    ¬ (offset % 512 = 0 ∧ chunkSize n size offset = 512) ∧ NeedsBounce offset (within n.data.length size offset) ∧
      (offset % 512 ≠ 0 ∨ within n.data.length size offset < 512) := by
  unfold chunkSize NeedsBounce within
  dsimp only
  split_ifs <;> omega

theorem take_drop_sector (f : ℕ → UInt8) (start : ℕ) {c : ℕ} (h : c + offset % 512 ≤ 512) :
    ((slice f (512 * (start + offset / 512)) 512).drop (offset % 512)).take c =
      slice f (512 * start + offset) c := by
  rw [drop_slice, take_slice, Nat.min_eq_left (by omega)]
  congr 1
  omega

theorem store_chunk (f : ℕ → UInt8) (start : ℕ) {l : List UInt8} (h : l.length + offset % 512 ≤ 512) :
    store f (512 * (start + offset / 512)) (overwrite (slice f (512 * (start + offset / 512)) 512) (offset % 512) l)
      = store f (512 * start + offset) l := by
  rw [store_overwrite (by omega)]
  congr 1
  omega

theorem bounceBuffer_exact (s : Fs) (bounce : Bool) {len : ℕ} (h : NeedsBounce offset len) :
    (bounceBuffer bounce).run s = .ok (bounce || s.memory 0, s.withMemory (memoryLeft bounce s.memory offset len)) := by
  cases bounce with
  | true =>
    rfl
  | false =>
    rw [memoryLeft_malloc h]
    rfl

/-- **Reading**, whatever `malloc` answers. -/
theorem readLoop_exact :
    ∀ (fuel : ℕ) (s : Fs) (bounce : Bool) (size : ℤ) (offset : ℕ) (buffer : List UInt8), InDevice s n.data →
      size.toNat ≤ fuel → (readLoop n fuel bounce size offset buffer).run s =
        .ok (buffer ++ slice s.disk (512 * n.data.start + offset)
            (moved bounce s.memory offset (within n.data.length size offset)),
          s.withMemory (memoryLeft bounce s.memory offset (within n.data.length size offset)))
  | 0, s, bounce, size, offset, buffer, _, hf => by
    have hs : ¬ 0 < size := by omega
    rw [readLoop, if_neg hs, within_of_size_nonpos hs, moved_zero, memoryLeft_zero, slice_zero, append_nil]
    rfl
  | fuel + 1, s, bounce, size, offset, buffer, hd, hf => by
    rw [readLoop]
    by_cases hs : 0 < size
    · rw [if_pos hs]
      by_cases ho : (offset : ℤ) < n.data.length
      · obtain ⟨hc0, hcs, hcl, hc512⟩ := chunkSize_spec hs ho
        obtain ⟨hsec, hlt⟩ := byteToSector_eq hd ho
        have hcases := chunkSize_cases hs ho
        generalize chunkSize n size offset = c at hc0 hcs hcl hc512 hcases
        have hwithin := within_sub hc0 hcs hcl
        rw [if_neg (by omega)]
        rcases hcases with ⟨hofs, rfl⟩ | ⟨hpart, hneeds, hlast⟩
        · rw [if_pos ⟨hofs, rfl⟩, run_bind_ok (blockRead_run hlt), readLoop_exact fuel s bounce _ _ _ hd (by omega),
            hwithin, show (512 : ℤ).toNat = 512 from rfl, moved_whole hofs, memoryLeft_whole hofs, slice_add, hsec,
            append_assoc, Nat.add_assoc, show 512 * (n.data.start + offset / 512) = 512 * n.data.start + offset by omega]
        · rw [if_neg hpart, run_bind_ok (bounceBuffer_exact s bounce hneeds)]
          cases hfound : bounce || s.memory 0 with
          | false =>
            obtain ⟨rfl, hmem⟩ := Bool.or_eq_false_iff.1 hfound
            rw [if_neg Bool.false_ne_true, moved_none hneeds hlast hmem, slice_zero, append_nil]
            rfl
          | true =>
            rw [if_pos rfl, moved_of_bounce (by simpa using hfound)]
            generalize memoryLeft bounce s.memory offset _ = m
            rw [run_bind_ok (blockRead_run (s := s.withMemory m) hlt),
              readLoop_exact fuel (s.withMemory m) true _ _ _ ⟨hd.1, hd.2, hd.3, hd.4⟩ (by omega),
              moved_of_bounce (.inl rfl), memoryLeft_true, hwithin, slice_add, append_assoc, Nat.add_assoc, hsec]
            have hchunk := take_drop_sector s.disk n.data.start (show c.toNat + offset % 512 ≤ 512 by omega)
            rw [show (s.withMemory m).disk = s.disk from rfl, hchunk]
            rfl
      · rw [if_pos (chunkSize_nonpos (by omega)), within_of_length_le (by omega), moved_zero, memoryLeft_zero,
          slice_zero, append_nil]
        rfl
    · rw [if_neg hs, within_of_size_nonpos hs, moved_zero, memoryLeft_zero, slice_zero, append_nil]
      rfl

/-- **Writing**, whatever `malloc` answers. -/
theorem writeLoop_exact (buffer : ℕ → UInt8) :
    ∀ (fuel : ℕ) (s : Fs) (bounce : Bool) (size : ℤ) (offset written : ℕ), InDevice s n.data → size.toNat ≤ fuel →
      (writeLoop n buffer fuel bounce size offset written).run s =
        .ok (written + moved bounce s.memory offset (within n.data.length size offset),
          (s.withDisk (store s.disk (512 * n.data.start + offset) (slice buffer written
            (moved bounce s.memory offset (within n.data.length size offset))))).withMemory
              (memoryLeft bounce s.memory offset (within n.data.length size offset)))
  | 0, s, bounce, size, offset, written, _, hf => by
    have hs : ¬ 0 < size := by omega
    rw [writeLoop, if_neg hs, within_of_size_nonpos hs, moved_zero, memoryLeft_zero, slice_zero, store_nil]
    rfl
  | fuel + 1, s, bounce, size, offset, written, hd, hf => by
    rw [writeLoop]
    by_cases hs : 0 < size
    · rw [if_pos hs]
      by_cases ho : (offset : ℤ) < n.data.length
      · obtain ⟨hc0, hcs, hcl, hc512⟩ := chunkSize_spec hs ho
        obtain ⟨hsec, hlt⟩ := byteToSector_eq hd ho
        have hcases := chunkSize_cases hs ho
        generalize chunkSize n size offset = c at hc0 hcs hcl hc512 hcases
        have hwithin := within_sub hc0 hcs hcl
        rw [if_neg (by omega)]
        rcases hcases with ⟨hofs, rfl⟩ | ⟨hpart, hneeds, hlast⟩
        · rw [if_pos ⟨hofs, rfl⟩, run_bind_ok (blockWrite_run _ hlt)]
          have hrest := writeLoop_exact buffer fuel (s.withDisk (store s.disk (512 * byteToSector n offset) (slice buffer written 512)))
            bounce (size - 512) (offset + 512) (written + 512) ⟨hd.1, hd.2, hd.3, hd.4⟩ (by omega)
          refine hrest.trans ?_
          rw [hwithin, show (512 : ℤ).toNat = 512 from rfl, moved_whole hofs, memoryLeft_whole hofs, slice_add, store_append,
            length_slice, hsec, Nat.add_assoc, show 512 * (n.data.start + offset / 512) = 512 * n.data.start + offset by omega,
            Nat.add_assoc]
          rfl
        · rw [if_neg hpart, run_bind_ok (bounceBuffer_exact s bounce hneeds)]
          cases hfound : bounce || s.memory 0 with
          | false =>
            obtain ⟨rfl, hmem⟩ := Bool.or_eq_false_iff.1 hfound
            rw [if_neg Bool.false_ne_true, moved_none hneeds hlast hmem, slice_zero, store_nil]
            rfl
          | true =>
            rw [if_pos rfl, moved_of_bounce (by simpa using hfound)]
            generalize memoryLeft bounce s.memory offset _ = m
            have hkeep : 0 < offset % 512 ∨ c < 512 - (offset % 512 : ℕ) := by omega
            rw [if_pos hkeep, run_bind_ok (blockRead_run (s := s.withMemory m) hlt),
              run_bind_ok (blockWrite_run (s := s.withMemory m) _ hlt)]
            have hchunk := store_chunk s.disk n.data.start
              (show (slice buffer written c.toNat).length + offset % 512 ≤ 512 by rw [length_slice]; omega)
            rw [hsec, show (s.withMemory m).disk = s.disk from rfl, hchunk]
            have hrest := writeLoop_exact buffer fuel ((s.withMemory m).withDisk
              (store s.disk (512 * n.data.start + offset) (slice buffer written c.toNat))) true (size - c)
              (offset + c.toNat) (written + c.toNat) ⟨hd.1, hd.2, hd.3, hd.4⟩ (by omega)
            refine hrest.trans ?_
            rw [moved_of_bounce (.inl rfl), memoryLeft_true, hwithin, slice_add, store_append, length_slice,
              Nat.add_assoc, Nat.add_assoc]
            rfl
      · rw [if_pos (chunkSize_nonpos (by omega)), within_of_length_le (by omega), moved_zero, memoryLeft_zero,
          slice_zero, store_nil]
        rfl
    · rw [if_neg hs, within_of_size_nonpos hs, moved_zero, memoryLeft_zero, slice_zero, store_nil]
      rfl

theorem Fs.MemoryOk.memoryLeft_eq (hm : s.MemoryOk) (bounce : Bool) (offset len : ℕ) :
    s.withMemory (memoryLeft bounce s.memory offset len) = s := by
  have hleft : memoryLeft bounce s.memory offset len = s.memory := by
    unfold memoryLeft
    rw [hm]
    split_ifs <;> rfl
  rw [hleft]
  rfl

theorem readLoop_run (hm : s.MemoryOk) (hd : InDevice s n.data) (bounce : Bool) (size : ℤ) (offset : ℕ)
    (buffer : List UInt8) : (readLoop n size.toNat bounce size offset buffer).run s =
      .ok (buffer ++ slice s.disk (512 * n.data.start + offset) (within n.data.length size offset), s) := by
  rw [readLoop_exact _ s bounce size offset buffer hd le_rfl, hm.memoryLeft_eq, moved_of_bounce (.inr (by rw [hm]))]

theorem writeLoop_run (hm : s.MemoryOk) (hd : InDevice s n.data) (buffer : ℕ → UInt8) (bounce : Bool) (size : ℤ)
    (offset written : ℕ) : (writeLoop n buffer size.toNat bounce size offset written).run s =
      .ok (written + within n.data.length size offset, s.withDisk (store s.disk (512 * n.data.start + offset)
        (slice buffer written (within n.data.length size offset)))) := by
  rw [writeLoop_exact buffer _ s bounce size offset written hd le_rfl, moved_of_bounce (.inr (by rw [hm]))]
  have hleft := Fs.MemoryOk.memoryLeft_eq (s := s.withDisk (store s.disk (512 * n.data.start + offset)
    (slice buffer written (within n.data.length size offset)))) hm bounce offset (within n.data.length size offset)
  exact congrArg (fun u => Except.ok (written + within n.data.length size offset, u)) hleft

/-- **A read returns the bytes of the request that lie inside the file.** -/
theorem inodeReadAt_run {i : ℕ} (hm : s.MemoryOk) (hi : s.inodes.get i = some n) (hd : InDevice s n.data) :
    (inodeReadAt i size offset).run s =
      .ok (slice s.disk (512 * n.data.start + offset) (within n.data.length size offset), s) := by
  unfold inodeReadAt
  rw [run_bind_ok (getInode_run hi), readLoop_run hm hd, nil_append]

/-- **A write replaces the bytes of the request that lie inside the file, and no other byte.** -/
theorem inodeWriteAt_run {i : ℕ} {buffer : ℕ → UInt8} (hm : s.MemoryOk) (hi : s.inodes.get i = some n)
    (hd : InDevice s n.data) (hw : n.denyWriteCnt = 0) :
    (inodeWriteAt i buffer size offset).run s =
      .ok (within n.data.length size offset,
        s.withDisk (store s.disk (512 * n.data.start + offset)
          (slice buffer 0 (within n.data.length size offset)))) := by
  unfold inodeWriteAt
  rw [run_bind_ok (getInode_run hi), if_neg (by simpa using hw), writeLoop_run hm hd, Nat.zero_add]

/-- The inode `i` is open and has the content `c`. -/
structure Content (s : Fs) (i : ℕ) (n : Inode) (c : List UInt8) : Prop where
  get : s.inodes.get i = some n
  inDevice : InDevice s n.data
  length_eq : n.data.length = c.length
  slice_eq : slice s.disk (512 * n.data.start) c.length = c

namespace Content

variable {i : ℕ} {c : List UInt8}

theorem read (h : Content s i n c) (hm : s.MemoryOk) (size : ℤ) (offset : ℕ) :
    (inodeReadAt i size offset).run s = .ok ((c.drop offset).take size.toNat, s) := by
  have hslice : slice s.disk (512 * n.data.start + offset) (within c.length size offset) =
      ((slice s.disk (512 * n.data.start) c.length).drop offset).take size.toNat := by
    rw [drop_slice, take_slice]
    rfl
  rw [inodeReadAt_run hm h.get h.inDevice, h.length_eq, hslice, h.slice_eq]

theorem write (h : Content s i n c) (hm : s.MemoryOk) (hw : n.denyWriteCnt = 0) (buffer : ℕ → UInt8) (size : ℤ) (offset : ℕ) :
    (inodeWriteAt i buffer size offset).run s =
      .ok (min size.toNat (c.length - offset),
        s.withDisk (store s.disk (512 * n.data.start + offset)
          (slice buffer 0 (min size.toNat (c.length - offset))))) := by
  rw [inodeWriteAt_run hm h.get h.inDevice hw, h.length_eq]
  rfl

end Content

/-! ## States that differ in the answers of `malloc` -/

/-- The states differ in the answers of `malloc` to come. -/
def SameButMemory (s t : Fs) : Prop := ∃ memory, t = s.withMemory memory

theorem SameButMemory.refl (s : Fs) : SameButMemory s s := ⟨s.memory, rfl⟩

section
variable {i : ℕ} {c : List UInt8}

theorem InDevice.congr {d : InodeDisk} {t : Fs} (h : InDevice s d) (ht : SameButMemory s t) : InDevice t d := by
  obtain ⟨m, rfl⟩ := ht
  exact ⟨h.1, h.2, h.3, h.4⟩

theorem Content.congr {t : Fs} (h : Content s i n c) (ht : SameButMemory s t) : Content t i n c := by
  obtain ⟨m, rfl⟩ := ht
  exact ⟨h.get, h.inDevice.congr ⟨m, rfl⟩, h.length_eq, h.slice_eq⟩

end

end Pintos
