/-
  The partition table that the scripts make (utils/Pintos.pm).

  `make_partition_table` writes a table with one entry for each role that has a partition, and the scripts
  read tables with `interpret_partition_table`.  The kernel has its own reader (Partition.lean).
-/
import Pintos.Disk.Partition

namespace Pintos.Disk

open Lib Function List

/-- The roles of partitions, the keys of `%role2type`. -/
inductive Role where
  | kernel | filesys | scratch | swap
  deriving DecidableEq, Repr

namespace Role

/-- `@role_order`. -/
def order : List Role := [kernel, filesys, scratch, swap]

/-- `%role2type`. -/
def toType : Role → ℕ
  | kernel => 0x20
  | filesys => 0x21
  | scratch => 0x22
  | swap => 0x23

/-- `%type2role`. -/
def ofType (type : ℕ) : Option Role := order.find? fun r => r.toType == type

/-- The block type that the kernel gives to a partition with the role. -/
def blockType : Role → BlockType
  | kernel => .kernel
  | filesys => .filesys
  | scratch => .scratch
  | swap => .swap

end Role

structure Part where
  start : ℕ
  sectors : ℕ
  deriving DecidableEq, Repr

/-- The partitions by their roles. -/
abbrev Parts := Role → Option Part

/-- Heads and sectors. -/
structure Geometry where
  h : ℕ
  s : ℕ
  h_range : 1 ≤ h ∧ h ≤ 255
  s_range : 1 ≤ s ∧ s ≤ 63

def lbaToChs (lba : ℕ) (g : Geometry) : ℕ × ℕ × ℕ :=
  let cyl := lba / (g.h * g.s)
  let temp := lba % (g.h * g.s)
  let head := temp / g.s
  let sect := temp % g.s + 1
  if cyl ≤ 1023 then (cyl, head, sect) else (1023, 254, 63)

def packChs (lba : ℕ) (g : Geometry) : List UInt8 :=
  let c := lbaToChs lba g
  [UInt8.ofNat c.2.1, UInt8.ofNat (c.2.2 ||| (c.1 >>> 2 &&& 0xc0)), UInt8.ofNat (c.1 &&& 0xff)]

/-- The entry of a partition. -/
def packEntry (g : Geometry) (role : Role) (p : Part) : List UInt8 :=
  [if role = .kernel then 0x80 else 0] ++ packChs p.start g ++ [UInt8.ofNat role.toType] ++
    packChs (p.start + p.sectors - 1) g ++ ofWord p.start ++ ofWord p.sectors

/-- The roles in use, in order, with their partitions. -/
def Parts.toList (parts : Parts) : List (Role × Part) := Role.order.filterMap fun role => (parts role).map (role, ·)

/-- `make_partition_table`; `pack ("a64", $table)` is `fit`. -/
def makePartitionTable (g : Geometry) (parts : Parts) : List UInt8 :=
  fit 64 (parts.toList.map fun rp => packEntry g rp.1 rp.2).flatten

/-- A turn of the loop of `interpret_partition_table`; the first byte is unpacked twice. -/
def interpretEntry (parts : Parts) (l : List UInt8) : Parts :=
  let bootable := (l[0]?.getD 0).toNat
  let valid := toWord l
  let type := (l[4]?.getD 0).toNat
  let lbaStart := toWord (l.drop 8)
  let lbaLength := toWord (l.drop 12)
  if valid = 0 then parts
  else if bootable ≠ 0 ∧ bootable ≠ 0x80 then parts
  else match Role.ofType type with
    | none => parts
    | some role => if (parts role).isSome then parts else update parts role (some ⟨lbaStart, lbaLength⟩)

/-- The 16 bytes of each entry. -/
def chunks (mbr : List UInt8) : List (List UInt8) := (List.range 4).map fun i => (mbr.drop (446 + 16 * i)).take 16

def interpretPartitionTable (mbr : List UInt8) : Parts := (chunks mbr).foldl interpretEntry fun _ => none

/-! ## The entries of a table -/

section
variable {g : Geometry} {parts : Parts} {role : Role} {p : Part} {l loader : List UInt8}

theorem ofType_toType (role : Role) : Role.ofType role.toType = some role := by cases role <;> rfl

theorem blockType_toType (role : Role) : Disk.blockType role.toType = role.blockType := by cases role <;> rfl

theorem toType_spec (role : Role) : role.toType < 2 ^ 8 ∧ role.toType ≠ 0 ∧
    ∀ offset size, Entry.isExtended ⟨role.toType, offset, size⟩ = false := by
  cases role <;> exact ⟨by decide, by decide, fun _ _ => rfl⟩

theorem chunk_cons {n : ℕ} (hl : l.length = 16) (t : List UInt8) :
    (List.range (n + 1)).map (fun i => ((l ++ t).drop (16 * i)).take 16) =
      l :: (List.range n).map fun i => (t.drop (16 * i)).take 16 := by
  rw [range_succ_eq_map, map_cons, map_map, Nat.mul_zero, drop_zero, take_left' hl]
  congr 1
  refine map_congr_left fun i _ => ?_
  change ((l ++ t).drop (16 * (i + 1))).take 16 = _
  rw [Nat.mul_add, Nat.mul_one, Nat.add_comm, ← hl, drop_length_add_append]

theorem chunks_fit : ∀ (n : ℕ) (ls : List (List UInt8)), ls.length ≤ n → (∀ l ∈ ls, l.length = 16) →
    (List.range n).map (fun i => ((fit (16 * n) ls.flatten).drop (16 * i)).take 16) =
      ls ++ List.replicate (n - ls.length) (List.replicate 16 0)
  | 0, [], _, _ => rfl
  | n + 1, [], _, _ => by
    have hfit : fit (16 * (n + 1)) ([] : List (List UInt8)).flatten = replicate 16 0 ++ fit (16 * n) ([] : List (List UInt8)).flatten := by
      rw [flatten_nil, fit_of_le (Nat.zero_le _), fit_of_le (Nat.zero_le _), nil_append, nil_append,
        length_nil, replicate_append_replicate]
      congr 1
      omega
    rw [hfit, chunk_cons (length_replicate ..), chunks_fit n [] (Nat.zero_le _) nofun]
    rfl
  | n + 1, l :: ls, hle, hlen => by
    have hl := hlen l mem_cons_self
    rw [flatten_cons, fit_append (by omega), hl, show 16 * (n + 1) - 16 = 16 * n by omega, chunk_cons hl,
      chunks_fit n ls (Nat.le_of_succ_le_succ hle) fun l' hl' => hlen l' (mem_cons_of_mem _ hl'), length_cons,
      Nat.add_sub_add_right]
    rfl

theorem length_toList_le (parts : Parts) : parts.toList.length ≤ 4 := length_filterMap_le ..

theorem mem_toList : (role, p) ∈ parts.toList ↔ parts role = some p := by
  unfold Parts.toList
  rw [mem_filterMap]
  constructor
  · rintro ⟨r, -, hr⟩
    obtain ⟨q, hq, heq⟩ := Option.map_eq_some_iff.1 hr
    obtain ⟨rfl, rfl⟩ := Prod.mk.inj heq
    exact hq
  · intro hp
    exact ⟨role, by cases role <;> decide, by rw [hp]; rfl⟩

theorem chunks_make (hloader : loader.length = 446) (g : Geometry) (parts : Parts) :
    chunks (loader ++ (makePartitionTable g parts ++ l)) =
      (parts.toList.map fun rp => packEntry g rp.1 rp.2) ++ List.replicate (4 - parts.toList.length) (List.replicate 16 0) := by
  have hlen := chunks_fit 4 (parts.toList.map fun rp => packEntry g rp.1 rp.2) (by rw [length_map]; exact length_toList_le parts)
    (by rintro _ hl; obtain ⟨rp, -, rfl⟩ := mem_map.1 hl; rfl)
  rw [length_map] at hlen
  rw [← hlen]
  refine map_congr_left fun i hi => ?_
  have hi' := mem_range.1 hi
  rw [← hloader, drop_length_add_append, drop_append_of_le_length (by rw [makePartitionTable, length_fit]; omega),
    take_append_of_le_length (by rw [length_drop, makePartitionTable, length_fit]; omega)]
  rfl

/-! ## The scripts read the table -/

theorem sect_ne_zero (g : Geometry) (lba : ℕ) :
    (UInt8.ofNat ((lbaToChs lba g).2.2 ||| ((lbaToChs lba g).1 >>> 2 &&& 0xc0))).toNat ≠ 0 := by
  have hs := g.s_range
  have hsect : 1 ≤ (lbaToChs lba g).2.2 ∧ (lbaToChs lba g).2.2 < 2 ^ 8 := by
    unfold lbaToChs
    dsimp only
    split_ifs
    · have := Nat.mod_lt (lba % (g.h * g.s)) (show 0 < g.s by omega)
      dsimp only
      omega
    · decide
  have hlt : (lbaToChs lba g).2.2 ||| ((lbaToChs lba g).1 >>> 2 &&& 0xc0) < 2 ^ 8 :=
    Nat.or_lt_two_pow hsect.2 (lt_of_le_of_lt Nat.and_le_right (by decide))
  have hle := Nat.left_le_or (n := (lbaToChs lba g).2.2) (m := (lbaToChs lba g).1 >>> 2 &&& 0xc0)
  rw [UInt8.toNat_ofNat', Nat.mod_eq_of_lt hlt]
  omega

theorem packEntry_spec (g : Geometry) (role : Role) (hp : p.start < 2 ^ 32 ∧ p.sectors < 2 ^ 32) :
    toWord (packEntry g role p) ≠ 0 ∧ (((packEntry g role p)[0]?.getD 0).toNat = 0 ∨ ((packEntry g role p)[0]?.getD 0).toNat = 0x80) ∧
      ((packEntry g role p)[4]?.getD 0).toNat = role.toType ∧ toWord ((packEntry g role p).drop 8) = p.start ∧
      toWord ((packEntry g role p).drop 12) = p.sectors := by
  refine ⟨?_, ?_, ?_, toWord_ofWord_append hp.1 _, toWord_ofWord hp.2⟩
  · have hsect := sect_ne_zero g p.start
    have hbyte : (packEntry g role p)[2]?.getD 0 =
      UInt8.ofNat ((lbaToChs p.start g).2.2 ||| ((lbaToChs p.start g).1 >>> 2 &&& 0xc0)) := rfl
    unfold toWord
    rw [hbyte]
    omega
  · cases role
    · exact .inr rfl
    all_goals exact .inl rfl
  · change (UInt8.ofNat role.toType).toNat = _
    rw [UInt8.toNat_ofNat', Nat.mod_eq_of_lt (toType_spec role).1]

theorem interpretEntry_pack (hp : p.start < 2 ^ 32 ∧ p.sectors < 2 ^ 32) (hnew : parts role = none) :
    interpretEntry parts (packEntry g role p) = update parts role (some p) := by
  obtain ⟨hvalid, hboot, htype, hstart, hsectors⟩ := packEntry_spec g role hp
  unfold interpretEntry
  rw [if_neg hvalid, if_neg (by omega), htype, ofType_toType, hstart, hsectors]
  dsimp only
  rw [hnew, if_neg (by decide)]

theorem foldl_pack (g : Geometry) : ∀ (rps : List (Role × Part)) (parts : Parts),
    (∀ rp ∈ rps, rp.2.start < 2 ^ 32 ∧ rp.2.sectors < 2 ^ 32) → (rps.map Prod.fst).Nodup → (∀ rp ∈ rps, parts rp.1 = none) →
    ∀ role, (rps.map fun rp => packEntry g rp.1 rp.2).foldl interpretEntry parts role =
      ((rps.find? fun rp => rp.1 == role).map Prod.snd).or (parts role)
  | [], parts, _, _, _, role => rfl
  | rp :: rps, parts, hlt, hnodup, hnew, role => by
    obtain ⟨hnot, hnodup⟩ := nodup_cons.1 hnodup
    have hnew' : ∀ rp' ∈ rps, update parts rp.1 (some rp.2) rp'.1 = none := by
      intro rp' hrp'
      rw [update_of_ne]
      · exact hnew rp' (mem_cons_of_mem _ hrp')
      · rintro heq
        exact hnot (heq ▸ mem_map_of_mem hrp')
    rw [map_cons, foldl_cons, interpretEntry_pack (hlt rp mem_cons_self) (hnew rp mem_cons_self),
      foldl_pack g rps _ (fun rp' h => hlt rp' (mem_cons_of_mem _ h)) hnodup hnew' role, find?_cons]
    by_cases hrole : rp.1 = role
    · have hnone : rps.find? (fun rp' => rp'.1 == role) = none := by
        refine find?_eq_none.2 fun rp' hrp' heq => hnot ?_
        rw [hrole, ← beq_iff_eq.1 heq]
        exact mem_map_of_mem hrp'
      rw [hnone, hrole, update_self, beq_self_eq_true]
      rfl
    · rw [beq_false_of_ne hrole, update_of_ne (Ne.symm hrole)]

theorem nodup_toList (parts : Parts) : (parts.toList.map Prod.fst).Nodup := by
  unfold Parts.toList
  rw [map_filterMap]
  refine List.Nodup.filterMap (fun r r' b hr hr' => ?_) (by decide)
  rw [Option.map_map, Option.mem_def, Option.map_eq_some_iff] at hr hr'
  obtain ⟨_, -, rfl⟩ := hr
  obtain ⟨_, -, h⟩ := hr'
  exact h.symm

theorem find?_toList (parts : Parts) (role : Role) :
    (parts.toList.find? fun rp => rp.1 == role).map Prod.snd = parts role := by
  cases hfind : parts.toList.find? fun rp => rp.1 == role with
  | some rp =>
    have hrole : rp.1 = role := beq_iff_eq.1 (find?_some hfind :)
    exact (mem_toList.1 (hrole ▸ mem_of_find?_eq_some hfind)).symm
  | none =>
    cases hp : parts role with
    | none => rfl
    | some p => exact absurd (beq_self_eq_true role) (find?_eq_none.1 hfind _ (mem_toList.2 hp))

theorem interpretPartitionTable_make (hloader : loader.length = 446)
    (hparts : ∀ role p, parts role = some p → p.start < 2 ^ 32 ∧ p.sectors < 2 ^ 32) :
    interpretPartitionTable (loader ++ (makePartitionTable g parts ++ l)) = parts := by
  have hzeros : ∀ (n : ℕ) (parts : Parts), (replicate n (replicate 16 0)).foldl interpretEntry parts = parts := by
    intro n parts
    induction n with
    | zero => rfl
    | succ n ih => exact ih
  funext role
  unfold interpretPartitionTable
  rw [chunks_make hloader, foldl_append, hzeros,
    foldl_pack g _ _ (fun rp hrp => hparts rp.1 rp.2 (mem_toList.1 hrp)) (nodup_toList parts) fun _ _ => rfl, find?_toList,
    Option.or_none]

/-! ## The kernel reads the table -/

theorem ofBytes_take (l : List UInt8) : Entry.ofBytes (l.take 16) = Entry.ofBytes l := by
  have hword : ∀ k ≤ 12, toWord ((l.take 16).drop k) = toWord (l.drop k) := by
    intro k hk
    unfold toWord
    simp only [getElem?_drop]
    rw [getElem?_take_of_lt (by omega), getElem?_take_of_lt (by omega), getElem?_take_of_lt (by omega),
      getElem?_take_of_lt (by omega)]
  unfold Entry.ofBytes
  rw [hword 8 (by decide), hword 12 (by decide), getElem?_take_of_lt (by decide)]

theorem partitions_eq_chunks (mbr : List UInt8) : partitions mbr = (chunks mbr).map Entry.ofBytes := by
  unfold partitions chunks
  exact map_congr_left fun i _ => (ofBytes_take _).symm

/-- A partition as the kernel finds it. -/
def found (rp : Role × Part) : Found := ⟨rp.1.toType, rp.2.start, rp.2.sectors⟩

theorem ofBytes_pack (role : Role) (hp : p.start < 2 ^ 32 ∧ p.sectors < 2 ^ 32) :
    Entry.ofBytes (packEntry g role p) = ⟨role.toType, p.start, p.sectors⟩ := by
  obtain ⟨-, -, htype, hstart, hsectors⟩ := packEntry_spec g role hp
  unfold Entry.ofBytes
  rw [htype, hstart, hsectors]

variable {d : Device}

theorem lists_pack {es : List Entry} (h : Lists d 0 0 es []) : ∀ rps : List (Role × Part), (∀ rp ∈ rps, 0 < rp.2.sectors) →
    Lists d 0 0 ((rps.map fun rp => ⟨rp.1.toType, rp.2.start, rp.2.sectors⟩) ++ es) (rps.map found)
  | [], _ => h
  | rp :: rps, hpos => by
    have hempty : Entry.isEmpty ⟨rp.1.toType, rp.2.start, rp.2.sectors⟩ = false := by
      have h1 := hpos rp mem_cons_self
      have h2 := (toType_spec rp.1).2.1
      unfold Entry.isEmpty
      rw [beq_false_of_ne (show rp.2.sectors ≠ 0 by omega), beq_false_of_ne h2]
      rfl
    exact .partition hempty ((toType_spec rp.1).2.2 _ _) (lists_pack h rps fun rp' h' => hpos rp' (mem_cons_of_mem _ h'))

theorem lists_zeros (d : Device) (n : ℕ) : Lists d 0 0 ((List.replicate n (List.replicate 16 0)).map Entry.ofBytes) [] := by
  induction n with
  | zero => exact .nil
  | succ n ih => exact ih.zero

/-- The partitions as the kernel registers them. -/
def Parts.blocks (parts : Parts) : List Block :=
  (parts.toList.zipIdx 1).map fun rp => ⟨rp.2, rp.1.1.blockType, rp.1.2.start, rp.1.2.sectors⟩

theorem registered_found (size : ℕ) : ∀ (rps : List (Role × Part)) (n : ℕ), (∀ rp ∈ rps, rp.2.start + rp.2.sectors ≤ size) →
    registered size n (rps.map found) = (rps.zipIdx (n + 1)).map fun rp => ⟨rp.2, rp.1.1.blockType, rp.1.2.start, rp.1.2.sectors⟩
  | [], _, _ => rfl
  | rp :: rps, n, h => by
    rw [map_cons, registered, if_pos (show (found rp).Within size from h rp mem_cons_self),
      registered_found size rps (n + 1) fun rp' h' => h rp' (mem_cons_of_mem _ h'), zipIdx_cons, map_cons]
    congr 2
    exact blockType_toType rp.1

theorem signature_mbr (hloader : loader.length = 446) (g : Geometry) (parts : Parts) :
    signature (loader ++ (makePartitionTable g parts ++ [0x55, 0xaa])) = 0xaa55 := by
  have hlen : (loader ++ makePartitionTable g parts).length = 510 := by
    rw [length_append, hloader, makePartitionTable, length_fit]
  unfold signature
  rw [← append_assoc, getElem?_append_right (by omega), getElem?_append_right (by omega), hlen]
  rfl

theorem scans_make (hloader : loader.length = 446) (hsize : 0 < d.size)
    (hparts : ∀ role p, parts role = some p → 0 < p.sectors ∧ p.start + p.sectors ≤ d.size)
    (hd : d.sector 0 = loader ++ (makePartitionTable g parts ++ [0x55, 0xaa])) : Scans d parts.blocks := by
  have hlt := d.size_lt
  have hentries : partitions (d.sector 0) = (parts.toList.map fun rp => ⟨rp.1.toType, rp.2.start, rp.2.sectors⟩) ++
      (replicate (4 - parts.toList.length) (replicate 16 0)).map Entry.ofBytes := by
    rw [hd, partitions_eq_chunks, chunks_make hloader, map_append, map_map]
    refine congrArg (· ++ _) (map_congr_left fun rp hrp => ofBytes_pack rp.1 ?_)
    have := hparts rp.1 rp.2 (mem_toList.1 hrp)
    omega
  have hlists : d.Lists (parts.toList.map found) := by
    have hsigned := signature_mbr hloader g parts
    rw [← hd] at hsigned
    refine ⟨hsize, hsigned, ?_⟩
    rw [hentries]
    exact lists_pack (lists_zeros d _) _ fun rp hrp => (hparts rp.1 rp.2 (mem_toList.1 hrp)).1
  have hscan := scan_of_primary hlists fun e he _ => by
    rw [hentries, mem_append] at he
    rcases he with he | he
    · obtain ⟨rp, -, rfl⟩ := mem_map.1 he
      exact (toType_spec rp.1).2.2 _ _
    · obtain ⟨l, hl, rfl⟩ := mem_map.1 he
      rw [eq_of_mem_replicate hl]
      rfl
  rwa [registered_found d.size _ 0 fun rp hrp => (hparts rp.1 rp.2 (mem_toList.1 hrp)).2] at hscan

/-- **The scripts and the kernel find the partitions that a table was made for**, the scripts by their
    roles and the kernel in the order of the roles. -/
theorem partition_table_read_back {d : Device} (hloader : loader.length = 446)
    (hsize : 0 < d.size) (hparts : ∀ role p, parts role = some p → 0 < p.sectors ∧ p.start + p.sectors ≤ d.size)
    (hd : d.sector 0 = loader ++ (makePartitionTable g parts ++ [0x55, 0xaa])) :
    interpretPartitionTable (d.sector 0) = parts ∧ Scans d parts.blocks := by
  refine ⟨?_, scans_make hloader hsize hparts hd⟩
  have hlt := d.size_lt
  rw [hd]
  refine interpretPartitionTable_make hloader fun role p hp => ?_
  have := hparts role p hp
  omega

end

/-- A kernel and a file system. -/
def twoParts : Parts
  | .kernel => some ⟨1, 150⟩
  | .filesys => some ⟨151, 4096⟩
  | _ => none

def geometry : Geometry := ⟨16, 63, by decide, by decide⟩

theorem partition_table_read_back_two : ∃ d : Device, interpretPartitionTable (d.sector 0) = twoParts ∧
    Scans d [⟨1, .kernel, 1, 150⟩, ⟨2, .filesys, 151, 4096⟩] := by
  have hlen : (replicate 446 0 ++ (makePartitionTable geometry twoParts ++ [0x55, 0xaa])).length = 512 := by
    rw [length_append, length_append, makePartitionTable, length_fit, length_replicate]
    rfl
  have hself := slice_store_self (f := fun _ => 0) (a := 0)
    (l := replicate 446 0 ++ (makePartitionTable geometry twoParts ++ [0x55, 0xaa]))
  rw [hlen] at hself
  refine ⟨⟨store (fun _ => 0) 0 (replicate 446 0 ++ (makePartitionTable geometry twoParts ++ [0x55, 0xaa])), 8064, by decide⟩,
    partition_table_read_back (length_replicate ..) (by decide) (fun role p hp => ?_) hself⟩
  cases role <;> cases hp <;> decide

end Pintos.Disk
