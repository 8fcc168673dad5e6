/-
  Reading and writing inodes, with checks (`inode_read_at` and `inode_write_at` of inode.c).

  The loops are those of InodeIo.lean, but here `off_t`, `int` and `block_sector_t` have 32 bits and sectors
  belong to inodes: a result that does not fit and an access to another sector are faults.
-/
import Pintos.Fs.Scarce

namespace Pintos

open Lib Prog List

inductive IoFault where
  | panic (e : Panic)
  /-- a result does not fit in its type -/
  | overflow
  /-- a sector that is not one of the inode -/
  | outside
  deriving DecidableEq, Repr

abbrev IoM := Prog Fs IoFault

def ofFs {α : Type} (x : FsM α) : IoM α := zoom id (fun _ t => t) .panic x

/-- A result of type `off_t` or `int`. -/
def off (x : ℤ) : IoM ℤ := if -2 ^ 31 ≤ x ∧ x < 2 ^ 31 then pure x else throw .overflow

/-- A result of type `block_sector_t`. -/
def sectorNo (x : ℕ) : IoM ℕ := if x < 2 ^ 32 then pure x else throw .overflow

/-- The sectors with the data of an inode. -/
def InodeDisk.Owns (d : InodeDisk) (sector : ℕ) : Prop := d.start ≤ sector ∧ sector < d.start + sectorsOf d.length.toNat

instance (d : InodeDisk) (sector : ℕ) : Decidable (d.Owns sector) := inferInstanceAs (Decidable (_ ∧ _))

def readSector (inode : Inode) (sector : ℕ) : IoM (List UInt8) :=
  if inode.data.Owns sector then ofFs (blockRead sector) else throw .outside

def writeSector (inode : Inode) (sector : ℕ) (buffer : List UInt8) : IoM Unit :=
  if inode.data.Owns sector then ofFs (blockWrite sector buffer) else throw .outside

/-- What both loops compute in a turn. -/
structure Turn where
  sectorIdx : ℕ
  sectorOfs : ℤ
  sectorLeft : ℤ
  chunkSize : ℤ

/-- `byte_to_sector`. -/
def byteToSectorChecked (inode : Inode) (pos : ℤ) : IoM ℕ :=
  if pos < inode.data.length then do
    let quotient ← off (pos.tdiv 512)
    sectorNo (inode.data.start + quotient.toNat)
  else pure (2 ^ 32 - 1)

def turn (inode : Inode) (size offset : ℤ) : IoM Turn := do
  let sectorIdx ← byteToSectorChecked inode offset
  let sectorOfs ← off (offset.tmod 512)
  let inodeLeft ← off (inode.data.length - offset)
  let sectorLeft ← off (512 - sectorOfs)
  let minLeft := if inodeLeft < sectorLeft then inodeLeft else sectorLeft
  pure ⟨sectorIdx, sectorOfs, sectorLeft, if size < minLeft then size else minLeft⟩

/-- `size`, `offset` and the number of bytes after a turn. -/
def advance (size offset bytes chunkSize : ℤ) : IoM (ℤ × ℤ × ℤ) := do
  let size ← off (size - chunkSize)
  let offset ← off (offset + chunkSize)
  let bytes ← off (bytes + chunkSize)
  pure (size, offset, bytes)

/-- The loop of `inode_read_at`. -/
def readLoopChecked (inode : Inode) : ℕ → Bool → ℤ → ℤ → ℤ → List UInt8 → IoM (ℤ × List UInt8)
  | 0, _, size, _, bytesRead, buffer => if 0 < size then throw (.panic .bound) else pure (bytesRead, buffer)
  | fuel + 1, bounce, size, offset, bytesRead, buffer =>
    if 0 < size then do
      let t ← turn inode size offset
      if t.chunkSize ≤ 0 then pure (bytesRead, buffer)
      else if t.sectorOfs = 0 ∧ t.chunkSize = 512 then do
        let sector ← readSector inode t.sectorIdx
        let next ← advance size offset bytesRead t.chunkSize
        readLoopChecked inode fuel bounce next.1 next.2.1 next.2.2 (buffer ++ sector)
      else do
        let found ← ofFs (bounceBuffer bounce)
        if found then do
          let sector ← readSector inode t.sectorIdx
          let next ← advance size offset bytesRead t.chunkSize
          readLoopChecked inode fuel true next.1 next.2.1 next.2.2
            (buffer ++ (sector.drop t.sectorOfs.toNat).take t.chunkSize.toNat)
        else pure (bytesRead, buffer)
    else pure (bytesRead, buffer)

/-- `inode_read_at`: the count that it returns, and the bytes. -/
def inodeReadAtChecked (inode : ℕ) (size offset : ℤ) : IoM (ℤ × List UInt8) := do
  let n ← ofFs (getInode inode)
  readLoopChecked n size.toNat false size offset 0 []

/-- The bounce buffer before the chunk is copied to it. -/
def bounceSector (inode : Inode) (t : Turn) : IoM (List UInt8) :=
  if 0 < t.sectorOfs ∨ t.chunkSize < t.sectorLeft then readSector inode t.sectorIdx else pure (List.replicate 512 0)

/-- The loop of `inode_write_at`. -/
def writeLoopChecked (inode : Inode) (buffer : ℕ → UInt8) : ℕ → Bool → ℤ → ℤ → ℤ → IoM ℤ
  | 0, _, size, _, bytesWritten => if 0 < size then throw (.panic .bound) else pure bytesWritten
  | fuel + 1, bounce, size, offset, bytesWritten =>
    if 0 < size then do
      let t ← turn inode size offset
      if t.chunkSize ≤ 0 then pure bytesWritten
      else if t.sectorOfs = 0 ∧ t.chunkSize = 512 then do
        writeSector inode t.sectorIdx (slice buffer bytesWritten.toNat 512)
        let next ← advance size offset bytesWritten t.chunkSize
        writeLoopChecked inode buffer fuel bounce next.1 next.2.1 next.2.2
      else do
        let found ← ofFs (bounceBuffer bounce)
        if found then do
          let sector ← bounceSector inode t
          writeSector inode t.sectorIdx
            (overwrite sector t.sectorOfs.toNat (slice buffer bytesWritten.toNat t.chunkSize.toNat))
          let next ← advance size offset bytesWritten t.chunkSize
          writeLoopChecked inode buffer fuel true next.1 next.2.1 next.2.2
        else pure bytesWritten
    else pure bytesWritten

/-- `inode_write_at`. -/
def inodeWriteAtChecked (inode : ℕ) (buffer : ℕ → UInt8) (size offset : ℤ) : IoM ℤ := do
  let n ← ofFs (getInode inode)
  if n.denyWriteCnt ≠ 0 then pure 0 else writeLoopChecked n buffer size.toNat false size offset 0

/-! ## The checks pass -/

section
variable {s t : Fs} {n : Inode} {size bytes c x : ℤ} {o k : ℕ}

theorem ofFs_run {α : Type} {m : FsM α} {a : α} (h : m.run s = .ok (a, t)) : (ofFs m).run s = .ok (a, t) := zoom_run h

theorem off_run (h : -2 ^ 31 ≤ x ∧ x < 2 ^ 31) (s : Fs) : (off x).run s = .ok (x, s) := by
  unfold off
  rw [if_pos h]
  rfl

theorem sectorNo_run (h : k < 2 ^ 32) (s : Fs) : (sectorNo k).run s = .ok (k, s) := by
  unfold sectorNo
  rw [if_pos h]
  rfl

theorem turn_run (hd : InDevice s n.data) (ho : o < 2 ^ 31) (size : ℤ) :
    (turn n size o).run s = .ok (⟨byteToSector n o, (o % 512 : ℕ), 512 - (o % 512 : ℕ), chunkSize n size o⟩, s) := by
  have h0 := hd.length_nonneg
  have h1 := hd.length_lt
  have hmod : (o : ℤ).tmod 512 = (o % 512 : ℕ) := by
    rw [Int.tmod_eq_emod_of_nonneg (by omega)]
    omega
  have hdiv : (o : ℤ).tdiv 512 = (o / 512 : ℕ) := by
    rw [Int.tdiv_eq_ediv_of_nonneg (by omega)]
    omega
  have hsector : (byteToSectorChecked n o).run s = .ok (byteToSector n o, s) := by
    unfold byteToSectorChecked
    by_cases hlt : (o : ℤ) < n.data.length
    · obtain ⟨hsec, hin⟩ := byteToSector_eq hd hlt
      have hsize := hd.size_lt
      rw [if_pos hlt, run_bind_ok (off_run (by omega) s), hdiv, Int.toNat_natCast, hsec]
      exact sectorNo_run (by omega) s
    · rw [if_neg hlt, byteToSector, if_neg hlt]
      rfl
  unfold turn
  rw [run_bind_ok hsector, hmod, run_bind_ok (off_run (by omega) s), run_bind_ok (off_run (by omega) s),
    run_bind_ok (off_run (by omega) s)]
  rfl

theorem advance_run (hc : 0 < c) (hcs : c ≤ size) (hsize : size < 2 ^ 31) (ho : 0 ≤ x) (hx : x + c < 2 ^ 31) (hb : 0 ≤ bytes)
    (hbc : bytes + c < 2 ^ 31) (s : Fs) : (advance size x bytes c).run s = .ok ((size - c, x + c, bytes + c), s) := by
  unfold advance
  rw [run_bind_ok (off_run (by omega) s), run_bind_ok (off_run (by omega) s),
    run_bind_ok (off_run (by omega) s)]
  rfl

theorem owns_byteToSector (hd : InDevice s n.data) (ho : (o : ℤ) < n.data.length) : n.data.Owns (byteToSector n o) := by
  have h0 := hd.length_nonneg
  rw [(byteToSector_eq hd ho).1]
  unfold InodeDisk.Owns sectorsOf
  omega

variable {l : List UInt8} {sector : ℕ}

theorem readSector_run (h : n.data.Owns sector) (hrun : (blockRead sector).run s = .ok (l, t)) :
    (readSector n sector).run s = .ok (l, t) := by
  unfold readSector
  rw [if_pos h]
  exact ofFs_run hrun

theorem writeSector_run (h : n.data.Owns sector)
    (hrun : (blockWrite sector l).run s = .ok ((), t)) : (writeSector n sector l).run s = .ok ((), t) := by
  unfold writeSector
  rw [if_pos h]
  exact ofFs_run hrun

theorem offset_lt_of_chunk (h : ¬ chunkSize n size o ≤ 0) : (o : ℤ) < n.data.length := by
  by_contra ho
  exact h (chunkSize_nonpos (by omega))

theorem InDevice.of_size {d : InodeDisk} (h : InDevice s d) (ht : t.size = s.size) : InDevice t d :=
  ⟨h.1, h.2, ht.symm ▸ h.3, ht.symm ▸ h.4⟩

theorem ok_of_blockRead (h : (blockRead sector).run s = .ok (l, t)) : t = s ∧ l.length = 512 := by
  unfold blockRead at h
  rw [run_bind_get] at h
  split_ifs at h
  · obtain ⟨rfl, rfl⟩ := ok_inj h
    exact ⟨rfl, length_slice⟩
  · cases h

theorem ok_of_blockWrite (h : (blockWrite sector l).run s = .ok ((), t)) : t.size = s.size := by
  unfold blockWrite at h
  rw [run_bind_get] at h
  split_ifs at h
  · obtain ⟨-, rfl⟩ := ok_inj h
    rfl
  · cases h

theorem ok_of_bounceBuffer {bounce found : Bool} (h : (bounceBuffer bounce).run s = .ok (found, t)) : t.size = s.size := by
  obtain ⟨_, _, hrun, ⟨m, rfl⟩, -⟩ := bounceBuffer_scarce s bounce
  obtain ⟨-, rfl⟩ := ok_inj (hrun.symm.trans h)
  rfl

/-- **The loop of `inode_read_at`** passes its checks. -/
theorem readLoopChecked_run :
    ∀ (fuel : ℕ) (bounce : Bool) (size : ℤ) (o : ℕ) (buffer : List UInt8) (s : Fs), InDevice s n.data → o < 2 ^ 31 →
      size + buffer.length < 2 ^ 31 → (readLoop n fuel bounce size o buffer).run s = .ok (l, t) →
      (readLoopChecked n fuel bounce size o buffer.length buffer).run s = .ok ((l.length, l), t)
  | 0, _, size, o, buffer, s, _, _, _, h => by
    unfold readLoop at h
    unfold readLoopChecked
    split_ifs at h ⊢
    · cases h
    · cases h
      rfl
  | fuel + 1, bounce, size, o, buffer, s, hd, ho, hsize, h => by
    unfold readLoop at h
    unfold readLoopChecked
    dsimp only at h
    split_ifs at h ⊢ with hpos hnone hfull
    · rw [run_bind_ok (turn_run hd ho size), if_pos hnone]
      cases h
      rfl
    · -- a whole sector
      have hin := offset_lt_of_chunk hnone
      obtain ⟨hc0, hcs, hcl, hc512⟩ := chunkSize_spec hpos hin
      have hlen := hd.length_lt
      obtain ⟨sector, s1, hread, hrest⟩ := ok_of_run_bind h
      obtain ⟨hs1, hsector⟩ := ok_of_blockRead hread
      rw [run_bind_ok (turn_run hd ho size)]
      dsimp only
      rw [if_neg hnone, if_pos (by exact_mod_cast hfull), run_bind_ok (readSector_run (owns_byteToSector hd hin) hread),
        run_bind_ok (advance_run hc0 hcs (by omega) (by omega) (by omega) (by omega) (by omega) _)]
      have ih := readLoopChecked_run fuel bounce _ _ _ _ (hs1 ▸ hd) (by omega) (by rw [length_append]; omega) hrest
      rw [length_append, hsector] at ih
      push_cast [Int.toNat_of_nonneg hc0.le] at ih
      rw [hfull.2] at ih ⊢
      exact ih
    · -- part of a sector
      have hin := offset_lt_of_chunk hnone
      obtain ⟨hc0, hcs, hcl, hc512⟩ := chunkSize_spec hpos hin
      have hlen := hd.length_lt
      obtain ⟨found, s1, hfound, hrest⟩ := ok_of_run_bind h
      have hd1 := hd.of_size (ok_of_bounceBuffer hfound)
      rw [run_bind_ok (turn_run hd ho size)]
      dsimp only
      rw [if_neg hnone, if_neg (by exact_mod_cast hfull), run_bind_ok (ofFs_run hfound)]
      cases found with
      | false =>
        cases hrest
        rfl
      | true =>
        rw [if_pos rfl] at hrest ⊢
        obtain ⟨sector, s2, hread, hrest⟩ := ok_of_run_bind hrest
        obtain ⟨hs2, hsector⟩ := ok_of_blockRead hread
        rw [run_bind_ok (readSector_run (owns_byteToSector hd hin) hread),
          run_bind_ok (advance_run hc0 hcs (by omega) (by omega) (by omega) (by omega) (by omega) _)]
        have hchunk : ((sector.drop (o % 512)).take (chunkSize n size o).toNat).length = (chunkSize n size o).toNat := by
          rw [length_take, length_drop]
          omega
        have ih := readLoopChecked_run fuel true _ _ _ _ (hs2 ▸ hd1) (by omega)
          (by rw [length_append, hchunk]; omega) hrest
        rw [length_append, hchunk] at ih
        push_cast [Int.toNat_of_nonneg hc0.le] at ih
        exact ih
    · cases h
      rfl

/-- **The loop of `inode_write_at`** passes its checks. -/
theorem writeLoopChecked_run {buffer : ℕ → UInt8} {r : ℕ} :
    ∀ (fuel : ℕ) (bounce : Bool) (size : ℤ) (o written : ℕ) (s : Fs), InDevice s n.data → o < 2 ^ 31 →
      size + written < 2 ^ 31 → (writeLoop n buffer fuel bounce size o written).run s = .ok (r, t) →
      (writeLoopChecked n buffer fuel bounce size o written).run s = .ok ((r : ℤ), t)
  | 0, _, size, o, written, s, _, _, _, h => by
    unfold writeLoop at h
    unfold writeLoopChecked
    split_ifs at h ⊢
    · cases h
    · cases h
      rfl
  | fuel + 1, bounce, size, o, written, s, hd, ho, hsize, h => by
    unfold writeLoop at h
    unfold writeLoopChecked
    dsimp only at h
    split_ifs at h ⊢ with hpos hnone hfull hkeep
    · rw [run_bind_ok (turn_run hd ho size), if_pos hnone]
      cases h
      rfl
    · have hin := offset_lt_of_chunk hnone
      obtain ⟨hc0, hcs, hcl, hc512⟩ := chunkSize_spec hpos hin
      have hlen := hd.length_lt
      obtain ⟨_, s1, hwrite, hrest⟩ := ok_of_run_bind h
      have hd1 := hd.of_size (ok_of_blockWrite hwrite)
      rw [run_bind_ok (turn_run hd ho size)]
      dsimp only
      rw [if_neg hnone, if_pos (by exact_mod_cast hfull), Int.toNat_natCast,
        run_bind_ok (writeSector_run (owns_byteToSector hd hin) hwrite),
        run_bind_ok (advance_run hc0 hcs (by omega) (by omega) (by omega) (by omega) (by omega) _)]
      have ih := writeLoopChecked_run fuel bounce _ _ _ _ hd1 (by omega) (by omega) hrest
      push_cast [Int.toNat_of_nonneg hc0.le] at ih
      exact ih
    · have hin := offset_lt_of_chunk hnone
      obtain ⟨hc0, hcs, hcl, hc512⟩ := chunkSize_spec hpos hin
      have hlen := hd.length_lt
      obtain ⟨found, s1, hfound, hrest⟩ := ok_of_run_bind h
      have hd1 := hd.of_size (ok_of_bounceBuffer hfound)
      rw [run_bind_ok (turn_run hd ho size)]
      dsimp only
      rw [if_neg hnone, if_neg (by exact_mod_cast hfull), run_bind_ok (ofFs_run hfound)]
      cases found with
      | false =>
        cases hrest
        rfl
      | true =>
        rw [if_pos rfl] at hrest
        obtain ⟨sector, s2, hread, hrest⟩ := ok_of_run_bind hrest
        obtain ⟨hs2, -⟩ := ok_of_blockRead hread
        obtain ⟨_, s3, hwrite, hrest⟩ := ok_of_run_bind hrest
        have hd3 := (hs2 ▸ hd1).of_size (ok_of_blockWrite hwrite)
        have hbounce : (bounceSector n ⟨byteToSector n o, (o % 512 : ℕ), 512 - (o % 512 : ℕ), chunkSize n size o⟩).run s1 =
            .ok (sector, s2) := by
          unfold bounceSector
          rw [if_pos (show 0 < ((o % 512 : ℕ) : ℤ) ∨ chunkSize n size o < 512 - ((o % 512 : ℕ) : ℤ) by omega)]
          exact readSector_run (owns_byteToSector hd hin) hread
        rw [if_pos rfl, run_bind_ok hbounce, Int.toNat_natCast, Int.toNat_natCast,
          run_bind_ok (writeSector_run (owns_byteToSector hd hin) hwrite),
          run_bind_ok (advance_run hc0 hcs (by omega) (by omega) (by omega) (by omega) (by omega) _)]
        have ih := writeLoopChecked_run fuel true _ _ _ _ hd3 (by omega) (by omega) hrest
        push_cast [Int.toNat_of_nonneg hc0.le] at ih
        exact ih
    · -- a chunk that is no whole sector leaves something of it
      have hin := offset_lt_of_chunk hnone
      have := chunkSize_spec hpos hin
      omega
    · cases h
      rfl

end

/-! ## Reading and writing -/

section
variable {s : Fs} {n : Inode} {i : ℕ} {size offset : ℤ}

theorem within_eq (size : ℤ) (hd : InDevice s n.data) (o : ℕ) :
    (within n.data.length size o : ℤ) = max 0 (min size (n.data.length - o)) := by
  have := hd.length_nonneg
  unfold within
  omega

/-- **Reading and writing inodes.**  Whatever memory there is, both return without overflow and without
    access to the sectors of others.  They transfer a part of the request from its start on, all that is
    in the file if there is memory for the bounce buffer and writes are not denied; a write changes no
    other byte of the device. -/
theorem inode_io_ok (buffer : ℕ → UInt8) (hi : s.inodes.get i = some n) (hd : InDevice s n.data)
    (hsize : -2 ^ 31 ≤ size ∧ size < 2 ^ 31) (hoffset : 0 ≤ offset ∧ offset < 2 ^ 31) :
    (Prog.Returns (inodeReadAtChecked i size offset) s fun r t =>
      (0 ≤ r.1 ∧ r.1 ≤ max 0 (min size (n.data.length - offset))) ∧
      (s.memory 0 = true → r.1 = max 0 (min size (n.data.length - offset))) ∧
      r.2 = slice s.disk (512 * n.data.start + offset.toNat) r.1.toNat ∧ SameButMemory s t) ∧
    (Prog.Returns (inodeWriteAtChecked i buffer size offset) s fun k t =>
      (0 ≤ k ∧ k ≤ max 0 (min size (n.data.length - offset))) ∧
      (s.memory 0 = true → n.denyWriteCnt = 0 → k = max 0 (min size (n.data.length - offset))) ∧
      SameButMemory (s.withDisk (store s.disk (512 * n.data.start + offset.toNat) (slice buffer 0 k.toNat))) t) := by
  obtain ⟨o, rfl⟩ := Int.eq_ofNat_of_zero_le hoffset.1
  have hwithin := within_eq size hd o
  constructor
  · obtain ⟨l, t, hrun, ht, k, hk, rfl, hall⟩ := readLoop_scarce n false size o [] hd
    have hchecked := readLoopChecked_run _ _ _ _ _ _ hd (by omega) (by simp only [length_nil]; omega) hrun
    rw [nil_append, length_slice] at hchecked
    refine .bind_run (ofFs_run (getInode_run hi)) (.of_run hchecked ⟨by omega, fun hm => ?_, ?_, ht⟩)
    · rw [hall (.inr hm), hwithin]
    · rfl
  · refine .bind_run (ofFs_run (getInode_run hi)) ?_
    split_ifs with hdeny
    · refine .pure ⟨by omega, fun _ h0 => absurd h0 hdeny, ?_⟩
      rw [Int.toNat_zero, slice_zero, store_nil]
      exact .refl s
    · obtain ⟨r, t, hrun, k, hk, rfl, ht, hall⟩ := writeLoop_scarce n buffer false size o 0 hd
      have hchecked := writeLoopChecked_run _ _ _ _ _ _ hd (by omega) (by omega) hrun
      rw [Nat.zero_add] at hchecked
      refine .of_run hchecked ⟨by omega, fun hm _ => ?_, ht⟩
      rw [hall (.inr hm), hwithin]

end

/-- An inode of 600 bytes that ends with the device, when there is no memory. -/
def lastInode : Inode := ⟨1, 1, false, 0, ⟨2, 600, inodeMagic⟩⟩

def lastInodeFs : Fs where
  disk := fun k => UInt8.ofNat k
  size := 4
  freeMap := ⟨4, fun _ => true⟩
  freeMapFile := none
  openInodes := [0]
  inodes := Heap.empty.alloc lastInode
  files := Heap.empty
  memory := fun _ => false

theorem inode_io_ok_lastInode : InDevice lastInodeFs lastInode.data ∧
    Prog.Returns (inodeReadAtChecked 0 (2 ^ 31 - 1) 512) lastInodeFs fun r _ => 0 ≤ r.1 ∧ r.1 ≤ 88 := by
  have hd : InDevice lastInodeFs lastInode.data := ⟨by decide, by decide, by decide, by decide⟩
  have h := inode_io_ok (fun _ => 0) (show lastInodeFs.inodes.get 0 = some lastInode from rfl) hd
    (show -2 ^ 31 ≤ (2 ^ 31 - 1 : ℤ) ∧ (2 ^ 31 - 1 : ℤ) < 2 ^ 31 by decide)
    (show (0 : ℤ) ≤ 512 ∧ (512 : ℤ) < 2 ^ 31 by decide)
  exact ⟨hd, h.1.mono fun r t hr => hr.1⟩

end Pintos
