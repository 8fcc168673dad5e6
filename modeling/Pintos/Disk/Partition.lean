/-
  Partition tables (devices/partition.c).

  A partition table lists four partitions.  One that is extended is itself a table, in another sector, and
  the tables form a chain that `read_partition_table` follows by recursion.
-/
import Pintos.Lib.Bytes
import Pintos.Lib.Prog

namespace Pintos.Disk

open Lib Prog List

/-- `enum block_type`. -/
inductive BlockType where
  | kernel | filesys | scratch | swap | raw | foreign
  deriving DecidableEq, Repr

/-- A block device; `block_sector_t` has 32 bits. -/
structure Device where
  bytes : ℕ → UInt8
  size : ℕ
  size_lt : size < 2 ^ 32

/-- `struct partition_table_entry`; the bytes that the kernel does not look at are left out. -/
structure Entry where
  type : ℕ
  offset : ℕ
  size : ℕ
  deriving DecidableEq, Repr

/-- A partition that `block_register` was called for: its number is behind the name of the device. -/
structure Block where
  partNr : ℕ
  type : BlockType
  start : ℕ
  size : ℕ
  deriving DecidableEq, Repr

inductive Fault where
  | panic (message : String)
  /-- the recursion did not end -/
  | stack
  deriving DecidableEq

structure Scan where
  partNr : ℕ
  /-- the partitions in `all_blocks` -/
  blocks : List Block
  memory : ℕ → Bool

abbrev ScanM := Prog Scan Fault

namespace Device

/-- The bytes of a sector. -/
def sector (d : Device) (n : ℕ) : List UInt8 := slice d.bytes (512 * n) 512

end Device

/-- The entry in 16 bytes. -/
def Entry.ofBytes (l : List UInt8) : Entry where
  type := (l[4]?.getD 0).toNat
  offset := toWord (l.drop 8)
  size := toWord (l.drop 12)

/-- `pt->partitions`. -/
def partitions (l : List UInt8) : List Entry := (List.range 4).map fun i => Entry.ofBytes (l.drop (446 + 16 * i))

/-- `pt->signature`. -/
def signature (l : List UInt8) : ℕ := (l[510]?.getD 0).toNat + 2 ^ 8 * (l[511]?.getD 0).toNat

namespace Entry

/-- `e->size == 0 || e->type == 0`. -/
def isEmpty (e : Entry) : Bool := e.size == 0 || e.type == 0

def isExtended (e : Entry) : Bool := e.type == 0x05 || e.type == 0x0f || e.type == 0x85 || e.type == 0xc5

end Entry

def blockType (partType : ℕ) : BlockType :=
  if partType = 0x20 then .kernel
  else if partType = 0x21 then .filesys
  else if partType = 0x22 then .scratch
  else if partType = 0x23 then .swap
  else .foreign

/-- `malloc`; where there is no memory its callers panic. -/
def malloc (message : String) : ScanM Unit := do
  let s ← get
  set { s with memory := fun n => s.memory (n + 1) }
  if s.memory 0 then pure () else throw (.panic message)

/-- `found_partition`, with `block_register`. -/
def foundPartition (d : Device) (partType start size partNr : ℕ) : ScanM Unit :=
  if d.size ≤ start then pure ()
  else if (start + size) % 2 ^ 32 < start ∨ d.size < (start + size) % 2 ^ 32 then pure ()
  else do
    malloc "Failed to allocate memory for partition descriptor"
    malloc "Failed to allocate memory for block device descriptor"
    modify fun s => { s with blocks := s.blocks ++ [⟨partNr, blockType partType, start, size⟩] }

/-- A turn of the loop of `read_partition_table`; `next` is the recursive call. -/
def tableTurn (d : Device) (next : ℕ → ℕ → ScanM Unit) (sector primary : ℕ) (e : Entry) : ScanM Unit :=
  if e.isEmpty then pure ()
  else if e.isExtended then
    if sector = 0 then next e.offset e.offset else next ((e.offset + primary) % 2 ^ 32) primary
  else do
    modify fun s => { s with partNr := s.partNr + 1 }
    let s ← get
    foundPartition d e.type ((e.offset + sector) % 2 ^ 32) e.size s.partNr

def tableLoop (d : Device) (next : ℕ → ℕ → ScanM Unit) (sector primary : ℕ) : List Entry → ScanM Unit
  | [] => pure ()
  | e :: l => do
    tableTurn d next sector primary e
    tableLoop d next sector primary l

/-- `read_partition_table`, with `fuel` calls left on the stack. -/
def readPartitionTable (d : Device) : ℕ → ℕ → ℕ → ScanM Unit
  | 0, _, _ => throw .stack
  | fuel + 1, sector, primary =>
    if d.size ≤ sector then pure ()
    else do
      malloc "Failed to allocate memory for partition table."
      -- `block_read (block, 0, pt)`
      let pt := d.sector 0
      if signature pt ≠ 0xaa55 then pure ()
      else tableLoop d (readPartitionTable d fuel) sector primary (partitions pt)

/-- `partition_scan`: what is registered, when the scan ends. -/
def Scans (d : Device) (l : List Block) : Prop :=
  ∃ depth, ∀ fuel ≥ depth, ∀ memory, (∀ n, memory n = true) → ∀ blocks, ∃ s,
    (readPartitionTable d fuel 0 0).run ⟨0, blocks, memory⟩ = .ok ((), s) ∧ s.blocks = blocks ++ l

/-! ## What the tables list -/

/-- A partition in a table along the chain. -/
structure Found where
  type : ℕ
  start : ℕ
  size : ℕ
  deriving DecidableEq, Repr

/-- The partitions that the entries of the table in `sector` list, and the tables behind it; `primary`
    is the first extended partition.  The chain of tables is finite and inside the device. -/
inductive Lists (d : Device) : ℕ → ℕ → List Entry → List Found → Prop
  | nil {sector primary} : Lists d sector primary [] []
  | empty {sector primary e l out} : e.isEmpty = true → Lists d sector primary l out →
    Lists d sector primary (e :: l) out
  /-- a table's offsets are relative to the table -/
  | partition {sector primary e l out} : e.isEmpty = false → e.isExtended = false → Lists d sector primary l out →
    Lists d sector primary (e :: l) (⟨e.type, e.offset + sector, e.size⟩ :: out)
  /-- the offset of an extended partition is absolute in the master boot record -/
  | extended {primary e l sub out} : e.isEmpty = false → e.isExtended = true →
    e.offset ≠ 0 → e.offset < d.size → signature (d.sector e.offset) = 0xaa55 →
    Lists d e.offset e.offset (partitions (d.sector e.offset)) sub → Lists d 0 primary l out →
    Lists d 0 primary (e :: l) (sub ++ out)
  /-- and relative to the first extended partition elsewhere -/
  | nested {sector primary e l sub out} : sector ≠ 0 → e.isEmpty = false → e.isExtended = true →
    e.offset + primary < d.size → signature (d.sector (e.offset + primary)) = 0xaa55 →
    Lists d (e.offset + primary) primary (partitions (d.sector (e.offset + primary))) sub →
    Lists d sector primary l out → Lists d sector primary (e :: l) (sub ++ out)

/-- The device has a master boot record, and the tables along the chain list `out`. -/
structure Device.Lists (d : Device) (out : List Found) : Prop where
  size_pos : 0 < d.size
  signed : signature (d.sector 0) = 0xaa55
  lists : Disk.Lists d 0 0 (partitions (d.sector 0)) out

/-- The partition lies within a device. -/
def Found.Within (size : ℕ) (f : Found) : Prop := f.start + f.size ≤ size

instance (size : ℕ) : DecidablePred (Found.Within size) := fun f => Nat.decLe (f.start + f.size) size

/-- The partitions that are registered: they are numbered, and those that do not lie within the device
    are left out. -/
def registered (size : ℕ) : ℕ → List Found → List Block
  | _, [] => []
  | n, f :: l =>
    if f.Within size then ⟨n + 1, blockType f.type, f.start, f.size⟩ :: registered size (n + 1) l
    else registered size (n + 1) l

/-! ## Tables without extended partitions -/

section
variable {d : Device} {s : Scan} {e : Entry} {l : List Entry} {out : List Found} {primary : ℕ}

theorem registered_cons (size n : ℕ) (f : Found) (l : List Found) : registered size n (f :: l) =
    (if f.Within size then [⟨n + 1, blockType f.type, f.start, f.size⟩] else []) ++ registered size (n + 1) l := by
  rw [registered]
  split_ifs <;> rfl

theorem mem_partitions {b : List UInt8} (h : e ∈ partitions b) : e.offset < 2 ^ 32 ∧ e.size < 2 ^ 32 := by
  obtain ⟨i, -, rfl⟩ := mem_map.1 h
  exact ⟨toWord_lt _, toWord_lt _⟩

theorem malloc_run (h : ∀ n, s.memory n = true) (message : String) :
    (malloc message).run s = .ok ((), { s with memory := fun n => s.memory (n + 1) }) := by
  unfold malloc
  rw [run_bind_get, run_bind_set, if_pos (h 0)]
  rfl

theorem foundPartition_run {f : Found} (h : ∀ n, s.memory n = true) (hstart : f.start < 2 ^ 32) (hsize : f.size < 2 ^ 32)
    (hpos : f.size ≠ 0) (partNr : ℕ) :
    ∃ memory, (∀ n, memory n = true) ∧ (foundPartition d f.type f.start f.size partNr).run s =
      .ok ((), ⟨s.partNr, s.blocks ++ if f.Within d.size then [⟨partNr, blockType f.type, f.start, f.size⟩] else [], memory⟩) := by
  have hlt := d.size_lt
  unfold foundPartition
  by_cases hin : f.Within d.size
  · have hin' : f.start + f.size ≤ d.size := hin
    rw [if_neg (by omega), if_neg (by omega), if_pos hin]
    refine ⟨_, ?_, (run_bind_ok (malloc_run h _)).trans ((run_bind_ok (malloc_run ?_ _)).trans rfl)⟩
    · exact fun n => h (n + 1 + 1)
    · exact fun n => h (n + 1)
  · have hin' : ¬ f.start + f.size ≤ d.size := hin
    rw [if_neg hin, append_nil]
    refine ⟨s.memory, h, ?_⟩
    split_ifs with h1 h2
    · rfl
    · rfl
    · omega

theorem tableLoop_run (hl : Lists d 0 primary l out) (hno : ∀ e ∈ l, e.isEmpty = false → e.isExtended = false)
    (hlt : ∀ e ∈ l, e.offset < 2 ^ 32 ∧ e.size < 2 ^ 32) (next : ℕ → ℕ → ScanM Unit) :
    ∀ s : Scan, (∀ n, s.memory n = true) → ∃ t, (tableLoop d next 0 primary l).run s = .ok ((), t) ∧
      t.blocks = s.blocks ++ registered d.size s.partNr out := by
  generalize hsector : 0 = sector at hl
  induction hl with
  | nil => exact fun s _ => ⟨s, rfl, (append_nil _).symm⟩
  | empty hempty _ ih =>
    intro s hs
    subst hsector
    obtain ⟨t, hrun, ht⟩ := ih (fun e he => hno e (mem_cons_of_mem _ he)) (fun e he => hlt e (mem_cons_of_mem _ he)) rfl s hs
    refine ⟨t, ?_, ht⟩
    unfold tableLoop tableTurn
    rwa [if_pos hempty]
  | @partition _ primary e l out hempty hext _ ih =>
    intro s hs
    subst hsector
    obtain ⟨hoffset, hsize⟩ := hlt e mem_cons_self
    have hpos : e.size ≠ 0 := by
      intro hzero
      unfold Entry.isEmpty at hempty
      rw [hzero] at hempty
      cases hempty
    obtain ⟨memory, hmemory, hfound⟩ := foundPartition_run (s := ⟨s.partNr + 1, s.blocks, s.memory⟩)
      (f := ⟨e.type, e.offset, e.size⟩) hs hoffset hsize hpos (s.partNr + 1)
    obtain ⟨t, hrun, ht⟩ := ih (fun e he => hno e (mem_cons_of_mem _ he)) (fun e he => hlt e (mem_cons_of_mem _ he)) rfl
      ⟨s.partNr + 1, s.blocks ++ if Found.Within d.size ⟨e.type, e.offset, e.size⟩ then
        [⟨s.partNr + 1, blockType e.type, e.offset, e.size⟩] else [], memory⟩ hmemory
    refine ⟨t, ?_, ?_⟩
    · unfold tableLoop tableTurn
      rw [if_neg (by rw [hempty]; exact Bool.false_ne_true), if_neg (by rw [hext]; exact Bool.false_ne_true),
        Nat.add_zero, Nat.mod_eq_of_lt hoffset]
      refine Eq.trans (run_bind_ok (a := ()) ?_) hrun
      exact (run_bind_modify).trans ((run_bind_get).trans hfound)
    · rw [ht, append_assoc, registered_cons]
      rfl
  | extended hempty hext => exact absurd (hno _ mem_cons_self hempty) (by rw [hext]; exact Bool.noConfusion)
  | nested _ hempty hext => exact absurd (hno _ mem_cons_self hempty) (by rw [hext]; exact Bool.noConfusion)

theorem scan_of_primary (h : d.Lists out) (hno : ∀ e ∈ partitions (d.sector 0), e.isEmpty = false → e.isExtended = false) :
    Scans d (registered d.size 0 out) := by
  refine ⟨1, fun fuel hfuel memory hmemory blocks => ?_⟩
  obtain ⟨fuel, rfl⟩ := Nat.exists_eq_succ_of_ne_zero (by omega : fuel ≠ 0)
  have hpos := h.size_pos
  obtain ⟨t, hrun, ht⟩ := tableLoop_run h.lists hno (fun e he => mem_partitions he) (readPartitionTable d fuel)
    ⟨0, blocks, fun n => memory (n + 1)⟩ fun n => hmemory (n + 1)
  refine ⟨t, ?_, ht⟩
  rw [readPartitionTable, if_neg (by omega), run_bind_ok (malloc_run hmemory _)]
  rw [if_neg (by rw [h.signed]; decide)]
  exact hrun

end

/-! ## Tables with extended partitions -/

/-- Devices with the same master boot record. -/
structure SameMbr (d d' : Device) : Prop where
  size_eq : d'.size = d.size
  sector_eq : d'.sector 0 = d.sector 0

/-- The device with the same master boot record and `b` in each other sector. -/
def Device.filled (d : Device) (b : List UInt8) : Device where
  bytes a := if a < 512 then d.bytes a else (b[a % 512]?).getD 0
  size := d.size
  size_lt := d.size_lt

/-- The partitions of the master boot record, with `sub` for the tables behind it. -/
def listed (sub : ℕ → List Found) (l : List Entry) : List Found :=
  l.flatMap fun e => if e.isEmpty then [] else if e.isExtended then sub e.offset else [⟨e.type, e.offset, e.size⟩]

section
variable {d d' : Device} {e : Entry} {l : List Entry} {b : List UInt8} {out : List Found} {sub : ℕ → List Found} {primary : ℕ}

theorem tableLoop_congr (hd : d'.size = d.size) (next : ℕ → ℕ → ScanM Unit) (sector primary : ℕ) :
    ∀ l : List Entry, tableLoop d' next sector primary l = tableLoop d next sector primary l
  | [] => rfl
  | e :: l => by
    have hfound : foundPartition d' = foundPartition d := by
      unfold foundPartition
      rw [hd]
    rw [tableLoop, tableLoop, tableLoop_congr hd next sector primary l]
    unfold tableTurn
    rw [hfound]

theorem readPartitionTable_congr (h : SameMbr d d') : ∀ fuel sector primary,
    readPartitionTable d' fuel sector primary = readPartitionTable d fuel sector primary
  | 0, _, _ => rfl
  | fuel + 1, sector, primary => by
    have hrec : readPartitionTable d' fuel = readPartitionTable d fuel := by
      funext sector primary
      exact readPartitionTable_congr h fuel sector primary
    rw [readPartitionTable, readPartitionTable, h.size_eq, h.sector_eq, hrec]
    simp only [tableLoop_congr h.size_eq]

theorem scans_congr (h : SameMbr d d') {blocks : List Block} : Scans d' blocks ↔ Scans d blocks := by
  unfold Scans
  simp only [readPartitionTable_congr h]

theorem sameMbr_filled (d : Device) (b : List UInt8) : SameMbr d (d.filled b) := by
  refine ⟨rfl, slice_congr fun i hi => ?_⟩
  exact if_pos (by omega)

theorem sector_filled (hb : b.length = 512) {n : ℕ} (hn : n ≠ 0) : (d.filled b).sector n = b := by
  apply ext_getElem?
  intro i
  unfold Device.sector
  rw [getElem?_slice]
  split_ifs with hi
  · have hbyte : (d.filled b).bytes (512 * n + i) = (b[i]?).getD 0 := by
      refine (if_neg (by omega)).trans ?_
      rw [Nat.mul_add_mod, Nat.mod_eq_of_lt hi]
    rw [hbyte, getElem?_eq_getElem (by omega), Option.getD_some]
  · rw [getElem?_eq_none (by omega)]

theorem Lists.offset_lt (h : Lists d 0 primary l out) (he : e ∈ l) (hempty : e.isEmpty = false) (hext : e.isExtended = true) :
    e.offset ≠ 0 ∧ e.offset < d.size := by
  generalize hsector : 0 = sector at h
  induction h with
  | nil => cases he
  | empty h _ ih =>
    rcases mem_cons.1 he with rfl | he
    · rw [h] at hempty
      cases hempty
    · exact ih he hsector
  | partition _ h _ ih =>
    rcases mem_cons.1 he with rfl | he
    · rw [h] at hext
      cases hext
    · exact ih he hsector
  | extended _ _ hne hlt _ _ _ _ ih =>
    rcases mem_cons.1 he with rfl | he
    · exact ⟨hne, hlt⟩
    · exact ih he hsector
  | nested hne => exact absurd hsector.symm hne

theorem lists_listed (hsub : ∀ n, n ≠ 0 → n < d.size → signature (d.sector n) = 0xaa55 ∧
      Lists d n n (partitions (d.sector n)) (sub n)) :
    ∀ l : List Entry, (∀ e ∈ l, e.isEmpty = false → e.isExtended = true → e.offset ≠ 0 ∧ e.offset < d.size) →
      Lists d 0 primary l (listed sub l)
  | [], _ => .nil
  | e :: l, h => by
    have ih := lists_listed hsub l fun e he => h e (mem_cons_of_mem _ he)
    unfold listed at ih ⊢
    rw [flatMap_cons]
    cases hempty : e.isEmpty with
    | true => exact .empty hempty ih
    | false =>
      cases hext : e.isExtended with
      | false => exact .partition hempty hext ih
      | true =>
        obtain ⟨hne, hlt⟩ := h e mem_cons_self hempty hext
        obtain ⟨hsigned, hlists⟩ := hsub e.offset hne hlt
        exact .extended hempty hext hne hlt hsigned hlists ih

theorem length_registered (size : ℕ) : ∀ (l : List Found) (n : ℕ), (registered size n l).length = l.countP (Found.Within size)
  | [], _ => rfl
  | f :: l, n => by
    rw [registered_cons, length_append, length_registered size l, countP_cons, Nat.add_comm]
    by_cases h : f.Within size
    · rw [if_pos h, if_pos (decide_eq_true h)]
      rfl
    · rw [if_neg h, if_neg (by rw [decide_eq_true_iff]; exact h)]
      rfl

theorem countP_listed {size : ℕ} (hsub : ∀ e ∈ l, e.isEmpty = false → e.isExtended = true → (sub e.offset).countP (Found.Within size) = 1) :
    (listed sub l).countP (Found.Within size) =
      (listed (fun _ => []) l).countP (Found.Within size) + l.countP fun e => !e.isEmpty && e.isExtended := by
  induction l with
  | nil => rfl
  | cons e l ih =>
    have ih := ih fun e he => hsub e (mem_cons_of_mem _ he)
    unfold listed at ih ⊢
    rw [flatMap_cons, flatMap_cons, countP_append, countP_append, countP_cons, ih]
    cases hempty : e.isEmpty with
    | true =>
      simp only [if_true, countP_nil, Bool.not_true, Bool.false_and, Bool.false_eq_true, if_false]
      omega
    | false =>
      cases hext : e.isExtended with
      | true =>
        simp only [Bool.false_eq_true, if_false, if_true, hsub e mem_cons_self hempty hext, countP_nil,
          Bool.not_false, Bool.and_self]
        omega
      | false =>
        simp only [Bool.false_eq_true, if_false, Bool.not_false, Bool.and_false]
        omega

/-- The bytes of a table with one entry. -/
def tableBytes (entry : List UInt8) (a : ℕ) : UInt8 :=
  if a = 510 then 0x55 else if a = 511 then 0xaa else if 446 ≤ a then entry[a - 446]?.getD 0 else 0

/-- A table with one partition, of a sector, where the table itself is. -/
def tableOne : List UInt8 := slice (tableBytes [0, 0, 0, 0, 0x21, 0, 0, 0, 0, 0, 0, 0, 1, 0, 0, 0]) 0 512

/-- A table without partitions. -/
def tableNone : List UInt8 := slice (tableBytes []) 0 512

theorem tableOne_spec : tableOne.length = 512 ∧ signature tableOne = 0xaa55 ∧
    partitions tableOne = [⟨0x21, 0, 1⟩, ⟨0, 0, 0⟩, ⟨0, 0, 0⟩, ⟨0, 0, 0⟩] := by
  decide +kernel

theorem tableNone_spec : tableNone.length = 512 ∧ signature tableNone = 0xaa55 ∧
    partitions tableNone = [⟨0, 0, 0⟩, ⟨0, 0, 0⟩, ⟨0, 0, 0⟩, ⟨0, 0, 0⟩] := by
  decide +kernel

theorem lists_filled (h : d.Lists out) (hb : b.length = 512) (hsigned : signature b = 0xaa55)
    (hsub : ∀ n, Lists (d.filled b) n n (partitions b) (sub n)) :
    (d.filled b).Lists (listed sub (partitions (d.sector 0))) := by
  have hsame := sameMbr_filled d b
  refine ⟨h.size_pos, ?_, ?_⟩
  · rw [hsame.sector_eq]
    exact h.signed
  rw [hsame.sector_eq]
  refine lists_listed (fun n hn _ => ?_) _ fun e he hempty hext => h.lists.offset_lt he hempty hext
  rw [sector_filled hb hn]
  exact ⟨hsigned, hsub n⟩

theorem Lists.zero {sector : ℕ} (h : Lists d sector primary l out) : Lists d sector primary (⟨0, 0, 0⟩ :: l) out :=
  .empty rfl h

theorem lists_tableNone (d : Device) (n : ℕ) : Lists d n n (partitions tableNone) [] := by
  rw [tableNone_spec.2.2]
  exact (((Lists.nil.zero).zero).zero).zero

theorem lists_tableOne (d : Device) (n : ℕ) : Lists d n n (partitions tableOne) [⟨0x21, 0 + n, 1⟩] := by
  rw [tableOne_spec.2.2]
  exact .partition rfl rfl ((Lists.nil.zero).zero).zero

theorem Scans.unique {l1 l2 : List Block} (h1 : Scans d l1) (h2 : Scans d l2) : l1 = l2 := by
  obtain ⟨n1, h1⟩ := h1
  obtain ⟨n2, h2⟩ := h2
  obtain ⟨s1, hrun1, hblocks1⟩ := h1 (max n1 n2) (le_max_left ..) (fun _ => true) (fun _ => rfl) []
  obtain ⟨s2, hrun2, hblocks2⟩ := h2 (max n1 n2) (le_max_right ..) (fun _ => true) (fun _ => rfl) []
  obtain ⟨-, rfl⟩ := ok_inj (hrun1.symm.trans hrun2)
  exact hblocks1.symm.trans hblocks2

/-- **`partition_scan` is right on the devices with a given master boot record if and only if this
    lists no extended partition.** -/
theorem partition_scan_iff (h : d.Lists out) :
    (∀ d' out', SameMbr d d' → d'.Lists out' → Scans d' (registered d'.size 0 out')) ↔
      ∀ e ∈ partitions (d.sector 0), e.isEmpty = false → e.isExtended = false := by
  constructor
  · intro hall e he hempty
    by_contra hext
    rw [Bool.not_eq_false] at hext
    -- two devices that only differ behind the master boot record
    have h1 := hall _ _ (sameMbr_filled d tableNone)
      (lists_filled h tableNone_spec.1 tableNone_spec.2.1 fun n => lists_tableNone _ n)
    have h2 := hall _ _ (sameMbr_filled d tableOne)
      (lists_filled h tableOne_spec.1 tableOne_spec.2.1 fun n => lists_tableOne _ n)
    rw [scans_congr (sameMbr_filled ..)] at h1 h2
    have hlen := congrArg length (h1.unique h2)
    rw [length_registered, length_registered] at hlen
    have hmore : (listed (fun n => [⟨0x21, 0 + n, 1⟩]) (partitions (d.sector 0))).countP (Found.Within d.size) = _ :=
      countP_listed fun e he hempty hext => by
        have hlt := (h.lists.offset_lt he hempty hext).2
        exact (countP_singleton ..).trans (if_pos (decide_eq_true (show 0 + e.offset + 1 ≤ d.size by omega)))
    have hpos : 0 < (partitions (d.sector 0)).countP fun e => !e.isEmpty && e.isExtended := by
      refine countP_pos_iff.2 ⟨e, he, ?_⟩
      rw [hempty, hext]
      rfl
    change _ = (listed (fun n => [⟨0x21, 0 + n, 1⟩]) (partitions (d.sector 0))).countP (Found.Within d.size) at hlen
    change (listed (fun _ => []) (partitions (d.sector 0))).countP (Found.Within d.size) = _ at hlen
    omega
  · intro hno d' out' hsame h'
    exact scan_of_primary h' (by rwa [hsame.sector_eq])

/-- A device of one sector, which lists itself. -/
def diskOne : Device := ⟨tableBytes [0, 0, 0, 0, 0x21, 0, 0, 0, 0, 0, 0, 0, 1, 0, 0, 0], 1, by decide⟩

theorem sector_diskOne : diskOne.sector 0 = tableOne := rfl

theorem lists_diskOne : diskOne.Lists [⟨0x21, 0 + 0, 1⟩] := by
  refine ⟨by decide, ?_, ?_⟩ <;> rw [sector_diskOne]
  · exact tableOne_spec.2.1
  · exact lists_tableOne _ 0

theorem partition_scan_iff_one : Scans diskOne [⟨1, .filesys, 0, 1⟩] :=
  (partition_scan_iff lists_diskOne).2 (by rw [sector_diskOne, tableOne_spec.2.2]; decide) diskOne _ ⟨rfl, rfl⟩ lists_diskOne

/-! ## More fuel -/

theorem tableLoop_mono {next next' : ℕ → ℕ → ScanM Unit} {sector : ℕ}
    (h : ∀ a b s r, (next a b).run s = .ok r → (next' a b).run s = .ok r) : ∀ (l : List Entry) (s : Scan) (r : Unit × Scan),
    (tableLoop d next sector primary l).run s = .ok r → (tableLoop d next' sector primary l).run s = .ok r
  | [], _, _, hrun => hrun
  | e :: l, s, r, hrun => by
    obtain ⟨u, t, hturn, hrest⟩ := ok_of_run_bind hrun
    have hturn' : (tableTurn d next' sector primary e).run s = .ok (u, t) := by
      unfold tableTurn at hturn ⊢
      split_ifs at hturn ⊢
      · exact hturn
      · exact h _ _ _ _ hturn
      · exact h _ _ _ _ hturn
      · exact hturn
    exact (run_bind_ok hturn').trans (tableLoop_mono h l t r hrest)

theorem readPartitionTable_mono : ∀ (fuel sector primary : ℕ) (s : Scan) (r : Unit × Scan),
    (readPartitionTable d fuel sector primary).run s = .ok r → (readPartitionTable d (fuel + 1) sector primary).run s = .ok r
  | 0, _, _, _, _, hrun => nomatch hrun
  | fuel + 1, sector, primary, s, r, hrun => by
    rw [readPartitionTable] at hrun ⊢
    split_ifs at hrun ⊢ with hpast
    · exact hrun
    · obtain ⟨u, t, hmalloc, hrun⟩ := ok_of_run_bind hrun
      refine (run_bind_ok hmalloc).trans ?_
      dsimp only at hrun ⊢
      split_ifs at hrun ⊢
      · exact hrun
      · exact tableLoop_mono (readPartitionTable_mono fuel) _ _ _ hrun

theorem readPartitionTable_of_le {fuel fuel' sector : ℕ} {s : Scan} {r : Unit × Scan} (hle : fuel ≤ fuel')
    (hrun : (readPartitionTable d fuel sector primary).run s = .ok r) :
    (readPartitionTable d fuel' sector primary).run s = .ok r := by
  induction hle with
  | refl => exact hrun
  | step _ ih => exact readPartitionTable_mono _ _ _ _ _ ih

/-- A device of three sectors with an extended partition in the last one, which lists a partition. -/
def diskExtended : Device :=
  Device.filled ⟨tableBytes [0, 0, 0, 0, 0x05, 0, 0, 0, 2, 0, 0, 0, 1, 0, 0, 0], 3, by decide⟩ tableOne

theorem diskExtended_spec : signature (diskExtended.sector 0) = 0xaa55 ∧
    partitions (diskExtended.sector 0) = [⟨0x05, 2, 1⟩, ⟨0, 0, 0⟩, ⟨0, 0, 0⟩, ⟨0, 0, 0⟩] := by
  decide +kernel

/-- The partition in the table of the extended partition is not found. -/
theorem partition_scan_extended : diskExtended.Lists [⟨0x21, 2, 1⟩] ∧
    registered diskExtended.size 0 [⟨0x21, 2, 1⟩] = [⟨1, .filesys, 2, 1⟩] ∧ ¬ Scans diskExtended [⟨1, .filesys, 2, 1⟩] ∧
    ((readPartitionTable diskExtended 3 0 0).run ⟨0, [], fun _ => true⟩).map (fun r => r.2.blocks) = .ok [] := by
  obtain ⟨hsigned, htable⟩ := diskExtended_spec
  have htwo : diskExtended.sector 2 = tableOne := sector_filled tableOne_spec.1 (by decide)
  have hrun : ((readPartitionTable diskExtended 3 0 0).run ⟨0, [], fun _ => true⟩).map (fun r => r.2.blocks) = .ok [] := by
    decide +kernel
  refine ⟨⟨by decide, hsigned, ?_⟩, rfl, ?_, hrun⟩
  · have hsub := lists_tableOne diskExtended 2
    rw [← htwo] at hsub
    rw [htable]
    exact Lists.extended (e := ⟨0x05, 2, 1⟩) rfl rfl (by decide) (by decide) (by rw [htwo]; exact tableOne_spec.2.1) hsub
      ((Lists.nil.zero).zero).zero
  · rintro ⟨depth, h⟩
    cases hthree : (readPartitionTable diskExtended 3 0 0).run ⟨0, [], fun _ => true⟩ with
    | error e =>
      rw [hthree] at hrun
      cases hrun
    | ok r =>
      obtain ⟨s, hs, hblocks⟩ := h (max depth 3) (le_max_left ..) (fun _ => true) (fun _ => rfl) []
      rw [readPartitionTable_of_le (le_max_right ..) hthree] at hs
      obtain rfl := Except.ok.inj hs
      rw [hthree] at hrun
      cases hblocks.symm.trans (Except.ok.inj hrun)

end

end Pintos.Disk
