/-
  The slots of a directory as a finite map (filesys/directory.c).

  A directory is meant to be a finite map from names to the sectors of inodes.  `Represents m c a` says that
  the `m` slots of the content `c` hold the map `a`: the names in use are valid and distinct, and they are
  bound to the sectors of their slots.
-/
import Mathlib.Data.Finmap
import Mathlib.Data.List.TakeWhile
import Pintos.Fs.Directory

namespace Pintos

open Lib Prog List

/-! ## Listing a directory -/

/-- The loop of `dir_readdir`; the result is the name and the new position. -/
def readdirLoop (inode : ℕ) : ℕ → ℕ → FsM (Option (List UInt8) × ℕ)
  | 0, _ => throw .bound
  | fuel + 1, pos => do
    let bytes ← inodeReadAt inode 20 pos
    if bytes.length = 20 then
      let e := DirEntry.ofBytes bytes
      -- `strlcpy` to an array of `NAME_MAX + 1` bytes
      if e.inUse then pure (some ((cstr e.name).take 14), pos + 20) else readdirLoop inode fuel (pos + 20)
    else pure (none, pos)

/-- `dir_readdir` at the position `pos` of the directory. -/
def dirReaddir (dir : Dir) (pos : ℕ) : FsM (Option (List UInt8) × ℕ) := do
  let n ← getInode dir.inode
  readdirLoop dir.inode (n.data.length.toNat / 20 + 1) pos

/-- `dir_readdir` returns these names one after the other, and then false. -/
inductive Scans (dir : Dir) (s : Fs) : ℕ → List (List UInt8) → Prop
  | done {pos pos'} : (dirReaddir dir pos).run s = .ok ((none, pos'), s) → Scans dir s pos []
  | next {pos pos' name l} : (dirReaddir dir pos).run s = .ok ((some name, pos'), s) → Scans dir s pos' l →
      Scans dir s pos (name :: l)

/-! ## Finite maps -/

/-- A finite map from names to sectors. -/
abbrev DirMap := Finmap fun _ : Name => ℕ

/-- The calls on a directory. -/
inductive DirOp where
  | add (name : Name) (inodeSector : ℕ)
  | remove (name : Name)
  | lookup (name : Name)
  | readdir

/-- Their results: for `dir_lookup` the sector of the inode it opens. -/
inductive DirResult where
  | bool (b : Bool)
  | sector (k : Option ℕ)
  | name (l : Option (List UInt8))

/-- The calls on a map that may hold `m` names. -/
inductive DirMap.Step (m : ℕ) : DirMap → DirOp × DirResult → DirMap → Prop
  | add {a name k} : name.val ≠ [] → name.val.length ≤ 14 → name ∉ a → a.keys.card < m →
      Step m a (.add name k, .bool true) (a.insert name k)
  | add_fails {a name k} : ¬ (name.val ≠ [] ∧ name.val.length ≤ 14 ∧ name ∉ a ∧ a.keys.card < m) →
      Step m a (.add name k, .bool false) a
  | remove {a name} : name ∈ a → Step m a (.remove name, .bool true) (a.erase name)
  | remove_fails {a name} : name ∉ a → Step m a (.remove name, .bool false) a
  | lookup {a name} : Step m a (.lookup name, .sector (a.lookup name)) a
  | readdir {a name} : name ∈ a → Step m a (.readdir, .name (some name.val)) a
  | readdir_end {a} : Step m a (.readdir, .name none) a

/-! ## Slots -/

theorem zero_not_mem_cstr (l : List UInt8) : (0 : UInt8) ∉ cstr l := by
  intro h
  have := mem_takeWhile_imp h
  simp at this

/-- The name in a slot. -/
def nameAt (c : List UInt8) (j : ℕ) : Name := ⟨cstr (entryAt c j).name, zero_not_mem_cstr _⟩

/-- The slots in use. -/
def usedSlots (m : ℕ) (c : List UInt8) : Finset ℕ := (Finset.range m).filter fun j => (entryAt c j).inUse = true

/-- The slots hold the map; the bytes behind them are too few for another one. -/
structure Represents (m : ℕ) (c : List UInt8) (a : DirMap) : Prop where
  length_eq : c.length / 20 = m
  distinct : DistinctNames m c
  valid : ∀ j < m, (entryAt c j).inUse = true → cstr (entryAt c j).name ≠ [] ∧ (cstr (entryAt c j).name).length ≤ 14
  lookup_iff : ∀ name k, a.lookup name = some k ↔ ∃ j < m, (entryAt c j).Binds name.val k

variable {m j k : ℕ} {c : List UInt8} {a : DirMap} {name : Name}

theorem mem_usedSlots : j ∈ usedSlots m c ↔ j < m ∧ (entryAt c j).inUse = true := by
  simp [usedSlots]

namespace Represents

section

variable (h : Represents m c a)
include h

theorem mem_iff : name ∈ a ↔ ∃ j < m, (entryAt c j).hasName name = true := by
  rw [← Finmap.lookup_isSome, Option.isSome_iff_exists]
  constructor
  · rintro ⟨k, hk⟩
    obtain ⟨j, hj, huse, hname, -⟩ := (h.lookup_iff name k).1 hk
    exact ⟨j, hj, hasName_iff.2 ⟨huse, hname⟩⟩
  · rintro ⟨j, hj, hname⟩
    obtain ⟨huse, hcstr⟩ := hasName_iff.1 hname
    exact ⟨_, (h.lookup_iff name _).2 ⟨j, hj, huse, hcstr, rfl⟩⟩

theorem keys_eq : a.keys = (usedSlots m c).image (nameAt c) := by
  ext name
  rw [Finmap.mem_keys, h.mem_iff, Finset.mem_image]
  constructor
  · rintro ⟨j, hj, hname⟩
    obtain ⟨huse, hcstr⟩ := hasName_iff.1 hname
    exact ⟨j, mem_usedSlots.2 ⟨hj, huse⟩, Subtype.ext hcstr⟩
  · rintro ⟨j, hj, rfl⟩
    obtain ⟨hj, huse⟩ := mem_usedSlots.1 hj
    exact ⟨j, hj, hasName_iff.2 ⟨huse, rfl⟩⟩

theorem card_keys : a.keys.card = (usedSlots m c).card := by
  rw [h.keys_eq]
  refine Finset.card_image_of_injOn fun j hj k hk hname => ?_
  obtain ⟨hj, huse⟩ := mem_usedSlots.1 hj
  obtain ⟨hk, huse'⟩ := mem_usedSlots.1 hk
  exact h.distinct j hj k hk huse huse' (Subtype.ext_iff.1 hname)

theorem card_lt_iff : a.keys.card < m ↔ ∃ j < m, (entryAt c j).inUse = false := by
  rw [h.card_keys]
  constructor
  · intro hlt
    by_contra hnone
    have hall : usedSlots m c = Finset.range m := by
      refine Finset.filter_true_of_mem fun j hj => ?_
      by_contra huse
      exact hnone ⟨j, Finset.mem_range.1 hj, Bool.eq_false_iff.2 huse⟩
    rw [hall, Finset.card_range] at hlt
    exact absurd hlt (lt_irrefl m)
  · rintro ⟨j, hj, hfree⟩
    have hsub : usedSlots m c ⊂ Finset.range m := by
      refine Finset.filter_ssubset.2 ⟨j, Finset.mem_range.2 hj, ?_⟩
      simp [hfree]
    have := Finset.card_lt_card hsub
    rwa [Finset.card_range] at this

theorem addable_iff : Addable m c name ↔
    name.val ≠ [] ∧ name.val.length ≤ 14 ∧ name ∉ a ∧ a.keys.card < m := by
  rw [h.mem_iff, h.card_lt_iff]
  refine and_congr_right fun _ => and_congr_right fun _ => and_congr_left fun _ => ?_
  simp

theorem le_length : 20 * m ≤ c.length := by
  have := h.length_eq
  omega

end

theorem empty (len : ℕ) : Represents (len / 20) (List.replicate len 0) ∅ := by
  have hfree : ∀ j, (entryAt (replicate len 0) j).inUse = false := by
    intro j
    unfold entryAt DirEntry.ofBytes
    rw [drop_replicate, take_replicate]
    rw [getElem?_replicate]
    split_ifs <;> rfl
  refine ⟨by rw [length_replicate], fun j _ k _ huse => ?_, fun j _ huse => ?_, fun name k => ?_⟩
  · rw [hfree j] at huse
    cases huse
  · rw [hfree j] at huse
    cases huse
  · constructor
    · intro hk
      cases hk
    · rintro ⟨j, -, huse, -⟩
      rw [hfree j] at huse
      cases huse

theorem insert (h : Represents m c a) (hj : j < m) (hfree : (entryAt c j).inUse = false) (hne : name.val ≠ [])
    (hlen : name.val.length ≤ 14) (hnew : name ∉ a) (hk : k < 2 ^ 32) :
    Represents m (overwrite c (20 * j) ((entryAt c j).renew name k).toBytes) (a.insert name k) := by
  have hname : ((entryAt c j).renew name k).name.length = 15 :=
    length_strlcpy hlen (length_name_ofBytes (length_entry h.le_length hj))
  have hat := entryAt_put h.le_length hj hname hk
  have hcstr : cstr ((entryAt c j).renew name k).name = name.val := cstr_strlcpy hlen
  have hother : ∀ l < m, (entryAt c l).inUse = true → cstr (entryAt c l).name ≠ name.val :=
    fun l hl huse hc => hnew (h.mem_iff.2 ⟨l, hl, hasName_iff.2 ⟨huse, hc⟩⟩)
  refine ⟨?_, fun l hl l' hl' huse huse' heq => ?_, fun l hl huse => ?_, fun name' k' => ?_⟩
  · rw [length_overwrite, h.length_eq]
    rw [DirEntry.length_toBytes hname]
    have := h.le_length
    omega
  · rw [hat] at huse heq
    rw [hat] at huse' heq
    split_ifs at huse huse' heq with hlj hlj' hlj'
    · rw [hlj, hlj']
    · exact absurd (heq.symm.trans hcstr) (hother l' hl' huse')
    · exact absurd (heq.trans hcstr) (hother l hl huse)
    · exact h.distinct l hl l' hl' huse huse' heq
  · rw [hat] at huse ⊢
    split_ifs at huse ⊢
    · rw [hcstr]
      exact ⟨hne, hlen⟩
    · exact h.valid l hl huse
  · by_cases heq : name' = name
    · subst heq
      rw [Finmap.lookup_insert]
      constructor
      · rintro hk'
        refine ⟨j, hj, ?_⟩
        rw [hat, if_pos rfl]
        exact ⟨rfl, hcstr, Option.some.inj hk'⟩
      · rintro ⟨l, hl, hbinds⟩
        rw [hat] at hbinds
        split_ifs at hbinds
        · exact congrArg some hbinds.2.2
        · exact absurd hbinds.2.1 (hother l hl hbinds.1)
    · rw [Finmap.lookup_insert_of_ne _ heq, h.lookup_iff]
      constructor
      · rintro ⟨l, hl, hbinds⟩
        refine ⟨l, hl, ?_⟩
        rw [hat, if_neg]
        · exact hbinds
        · rintro rfl
          rw [hbinds.1] at hfree
          cases hfree
      · rintro ⟨l, hl, hbinds⟩
        refine ⟨l, hl, ?_⟩
        rw [hat] at hbinds
        split_ifs at hbinds
        · exact absurd (Subtype.ext (hbinds.2.1.symm.trans hcstr)) heq
        · exact hbinds

theorem erase (h : Represents m c a) (hj : j < m) (hhas : (entryAt c j).hasName name = true) :
    Represents m (overwrite c (20 * j) (entryAt c j).unused.toBytes) (a.erase name) := by
  obtain ⟨hused, hcstr⟩ := hasName_iff.1 hhas
  have hname : (entryAt c j).unused.name.length = 15 := length_name_ofBytes (length_entry h.le_length hj)
  have hat := entryAt_put h.le_length hj hname (toWord_lt _)
  -- the slots in use are those before, but for the one
  have hslot : ∀ {l}, (entryAt (overwrite c (20 * j) (entryAt c j).unused.toBytes) l).inUse = true →
      l ≠ j ∧ entryAt (overwrite c (20 * j) (entryAt c j).unused.toBytes) l = entryAt c l := by
    intro l huse
    rw [hat] at huse ⊢
    split_ifs at huse ⊢ with hl
    · cases huse
    · exact ⟨hl, rfl⟩
  refine ⟨?_, fun l hl l' hl' huse huse' heq => ?_, fun l hl huse => ?_, fun name' k' => ?_⟩
  · rw [length_overwrite, h.length_eq]
    rw [DirEntry.length_toBytes hname]
    have := h.le_length
    omega
  · obtain ⟨-, he⟩ := hslot huse
    obtain ⟨-, he'⟩ := hslot huse'
    rw [he] at huse heq
    rw [he'] at huse' heq
    exact h.distinct l hl l' hl' huse huse' heq
  · obtain ⟨-, he⟩ := hslot huse
    rw [he] at huse ⊢
    exact h.valid l hl huse
  · by_cases heq : name' = name
    · subst heq
      rw [Finmap.lookup_erase]
      refine iff_of_false nofun ?_
      rintro ⟨l, hl, hbinds⟩
      obtain ⟨hlj, he⟩ := hslot hbinds.1
      rw [he] at hbinds
      exact hlj (h.distinct l hl j hj hbinds.1 hused (hbinds.2.1.trans hcstr.symm))
    · rw [Finmap.lookup_erase_ne heq, h.lookup_iff]
      constructor
      · rintro ⟨l, hl, hbinds⟩
        refine ⟨l, hl, ?_⟩
        rw [hat, if_neg]
        · exact hbinds
        · rintro rfl
          exact heq (Subtype.ext (hbinds.2.1.symm.trans hcstr))
      · rintro ⟨l, hl, hbinds⟩
        obtain ⟨-, he⟩ := hslot hbinds.1
        rw [he] at hbinds
        exact ⟨l, hl, hbinds⟩

theorem overwrite_tail {l : List UInt8} (h : Represents m c a) (hl : 20 * m + l.length ≤ c.length) :
    Represents m (overwrite c (20 * m) l) a := by
  have hat : ∀ j < m, entryAt (overwrite c (20 * m) l) j = entryAt c j := by
    intro j hj
    have htake : ((overwrite c (20 * m) l).take (20 * m)) = c.take (20 * m) := by
      unfold overwrite
      rw [append_assoc]
      exact take_left' (by rw [length_take]; omega)
    have hslot : ∀ c : List UInt8, (c.drop (20 * j)).take 20 = ((c.take (20 * m)).drop (20 * j)).take 20 := by
      intro c
      rw [drop_take, take_take, Nat.min_eq_left (show 20 ≤ 20 * m - 20 * j by omega)]
    unfold entryAt
    rw [hslot, htake, ← hslot]
  refine ⟨?_, fun j hj k hk huse huse' heq => ?_, fun j hj huse => ?_, fun name k => ?_⟩
  · rw [length_overwrite hl, h.length_eq]
  · rw [hat j hj] at huse heq
    rw [hat k hk] at huse' heq
    exact h.distinct j hj k hk huse huse' heq
  · rw [hat j hj] at huse ⊢
    exact h.valid j hj huse
  · rw [h.lookup_iff]
    refine exists_congr fun j => and_congr_right fun hj => ?_
    rw [hat j hj]

end Represents

/-! ## Listing -/

/-- What `dir_readdir` returns at the slot `p`, with `r` slots from there on. -/
def nextName (c : List UInt8) : ℕ → ℕ → Option (List UInt8) × ℕ
  | 0, p => (none, 20 * p)
  | r + 1, p => if (entryAt c p).inUse then (some ((cstr (entryAt c p).name).take 14), 20 * (p + 1)) else nextName c r (p + 1)

section
variable {s : Fs} {n : Inode} {dir : Dir} {i p r fuel : ℕ}

theorem readdirLoop_run (hm : s.MemoryOk) (h : Content s i n c) (hc : c.length / 20 = m) (hp : p + r = m) (hf : r < fuel) :
    (readdirLoop i fuel (20 * p)).run s = .ok (nextName c r p, s) := by
  induction r generalizing p fuel with
  | zero =>
    obtain ⟨fuel, rfl⟩ := Nat.exists_eq_succ_of_ne_zero hf.ne'
    have hread : (inodeReadAt i 20 (20 * p)).run s = .ok ((c.drop (20 * p)).take 20, s) := h.read hm 20 (20 * p)
    have hlen : ((c.drop (20 * p)).take 20).length < 20 := by
      rw [length_take, length_drop]
      omega
    rw [readdirLoop, run_bind_ok hread, if_neg hlen.ne]
    rfl
  | succ r ih =>
    obtain ⟨fuel, rfl⟩ := Nat.exists_eq_succ_of_ne_zero (Nat.ne_of_gt (Nat.zero_lt_of_lt hf))
    have hlt : p < m := by omega
    have hread : (inodeReadAt i 20 (20 * p)).run s = .ok ((c.drop (20 * p)).take 20, s) := h.read hm 20 (20 * p)
    rw [readdirLoop, run_bind_ok hread, if_pos (length_entry (by omega) hlt), nextName]
    by_cases huse : (entryAt c p).inUse = true
    · rw [if_pos huse]
      rw [if_pos (show (DirEntry.ofBytes _).inUse = true from huse)]
      rfl
    · rw [if_neg huse]
      rw [if_neg (show ¬ (DirEntry.ofBytes _).inUse = true from huse)]
      exact ih (p := p + 1) (by omega) (by omega)

theorem readdir_run (hm : s.MemoryOk) (h : Content s dir.inode n c) (hc : c.length / 20 = m) (hp : p + r = m) :
    (dirReaddir dir (20 * p)).run s = .ok (nextName c r p, s) := by
  unfold dirReaddir
  rw [run_bind_ok (getInode_run h.get), h.length_eq]
  exact readdirLoop_run hm h hc hp (by omega)

/-- The names in use from the slot `p` on, with `r` slots from there on. -/
def namesFrom (c : List UInt8) : ℕ → ℕ → List Name
  | 0, _ => []
  | r + 1, p => if (entryAt c p).inUse then nameAt c p :: namesFrom c r (p + 1) else namesFrom c r (p + 1)

theorem mem_namesFrom : name ∈ namesFrom c r p ↔ ∃ j, p ≤ j ∧ j < p + r ∧ (entryAt c j).hasName name = true := by
  induction r generalizing p with
  | zero =>
    simp only [namesFrom, not_mem_nil, false_iff, not_exists]
    omega
  | succ r ih =>
    have hmem : name ∈ namesFrom c (r + 1) p ↔ (entryAt c p).hasName name = true ∨ name ∈ namesFrom c r (p + 1) := by
      rw [namesFrom, hasName_iff]
      split_ifs with huse
      · rw [mem_cons, Subtype.ext_iff]
        simp [huse, nameAt, eq_comm]
      · simp [huse]
    rw [hmem, ih]
    constructor
    · rintro (hp | ⟨j, h1, h2, hj⟩)
      · exact ⟨p, le_rfl, by omega, hp⟩
      · exact ⟨j, by omega, by omega, hj⟩
    · rintro ⟨j, h1, h2, hj⟩
      rcases Nat.eq_or_lt_of_le h1 with rfl | h1
      · exact .inl hj
      · exact .inr ⟨j, h1, by omega, hj⟩

theorem nodup_namesFrom (hdistinct : DistinctNames m c) (hp : p + r = m) : (namesFrom c r p).Nodup := by
  induction r generalizing p with
  | zero => exact nodup_nil
  | succ r ih =>
    rw [namesFrom]
    split_ifs with huse
    · refine nodup_cons.2 ⟨fun hmem => ?_, ih (by omega)⟩
      obtain ⟨j, h1, h2, hj⟩ := mem_namesFrom.1 hmem
      obtain ⟨huse', hcstr⟩ := hasName_iff.1 hj
      have := hdistinct p (by omega) j (by omega) huse huse' hcstr.symm
      omega
    · exact ih (by omega)

theorem Scans.congr {pos pos' : ℕ} {l : List (List UInt8)} (h : Scans dir s pos l)
    (heq : (dirReaddir dir pos').run s = (dirReaddir dir pos).run s) : Scans dir s pos' l := by
  cases h with
  | done hend => exact .done (heq.trans hend)
  | next hname hrest => exact .next (heq.trans hname) hrest

theorem Represents.scans_from (hrep : Represents m c a) (hm : s.MemoryOk) (h : Content s dir.inode n c) (hp : p + r = m) :
    Scans dir s (20 * p) ((namesFrom c r p).map Subtype.val) := by
  induction r generalizing p with
  | zero => exact .done (readdir_run hm h hrep.length_eq hp)
  | succ r ih =>
    have hrun := readdir_run hm h hrep.length_eq hp
    rw [nextName] at hrun
    rw [namesFrom]
    split_ifs at hrun ⊢ with huse
    · have htake : (cstr (entryAt c p).name).take 14 = (nameAt c p).val :=
        take_of_length_le (hrep.valid p (by omega) huse).2
      rw [htake] at hrun
      exact .next hrun (ih (by omega))
    · exact (ih (by omega)).congr (hrun.trans (readdir_run hm h hrep.length_eq (by omega)).symm)

/-- **Listing the directory** from its start gives the names of the map, each once. -/
theorem Represents.scans (hrep : Represents m c a) (hm : s.MemoryOk) (h : Content s dir.inode n c) :
    ∃ l : List Name, Scans dir s 0 (l.map Subtype.val) ∧ l.Nodup ∧ ∀ name, name ∈ l ↔ name ∈ a := by
  refine ⟨namesFrom c m 0, hrep.scans_from hm h (Nat.zero_add m), nodup_namesFrom hrep.distinct (Nat.zero_add m), fun name => ?_⟩
  rw [mem_namesFrom, hrep.mem_iff]
  simp

theorem Represents.nextName_cases (hrep : Represents m c a) (hp : p + r = m) :
    ∃ p' ≤ m, (nextName c r p = (none, 20 * p') ∨ ∃ name ∈ a, nextName c r p = (some name.val, 20 * p')) := by
  induction r generalizing p with
  | zero => exact ⟨p, by omega, .inl rfl⟩
  | succ r ih =>
    rw [nextName]
    split_ifs with huse
    · have hname : nameAt c p ∈ a := hrep.mem_iff.2 ⟨p, by omega, hasName_iff.2 ⟨huse, rfl⟩⟩
      refine ⟨p + 1, by omega, .inr ⟨_, hname, ?_⟩⟩
      rw [take_of_length_le (hrep.valid p (by omega) huse).2]
      rfl
    · exact ih (by omega)

end

end Pintos
