/-
  Sectors in use.

  The inodes in use are those of the free map and of the root directory, those that an entry of the
  directory on the disk names and those that are open.
-/
import Pintos.Fs.Format

namespace Pintos

open Lib Prog Function

variable {s t : Fs} {nodes : Nodes} {refs : List ℕ} {k x : ℕ} {nd : Node}

/-- The inode on the disk at a sector. -/
def Fs.inodeAt (s : Fs) (k : ℕ) : InodeDisk := .ofBytes (slice s.disk (512 * k) 512)

/-- The bytes of a file on the disk. -/
def Fs.fileBytes (s : Fs) (k : ℕ) : List UInt8 := slice s.disk (512 * (s.inodeAt k).start) (s.inodeAt k).length.toNat

/-- The root directory on the disk. -/
def Fs.rootDir (s : Fs) : List UInt8 := s.fileBytes 1

/-- The entry `i` of the root directory is in use. -/
def Fs.EntryUsed (s : Fs) (i : ℕ) : Prop := 20 * (i + 1) ≤ s.rootDir.length ∧ (entryAt s.rootDir i).inUse = true

def Fs.InUse (s : Fs) (k : ℕ) : Prop :=
  k < 2 ∨ (∃ i, s.EntryUsed i ∧ (entryAt s.rootDir i).inodeSector = k) ∨
    ∃ i ∈ s.openInodes, ∃ n, s.inodes.get i = some n ∧ n.sector = k

/-- A sector of the data, `[start, start + ⌈length / 512⌉)`. -/
def InodeDisk.Extent (d : InodeDisk) (x : ℕ) : Prop := d.start ≤ x ∧ x < d.start + sectorsOf d.length.toNat

def Fs.Owns (s : Fs) (k x : ℕ) : Prop := x = k ∨ (s.inodeAt k).Extent x

structure ExtentsOk (s : Fs) : Prop where
  inside : ∀ {k x}, s.InUse k → s.Owns k x → x < s.size
  marked : ∀ {k x}, s.InUse k → s.Owns k x → s.freeMap.bits x = true
  apart : ∀ {k k' x}, s.InUse k → s.InUse k' → s.Owns k x → s.Owns k' x → k = k'
  inode_apart : ∀ {k}, s.InUse k → ¬ (s.inodeAt k).Extent k
  named_once : ∀ {i j}, s.EntryUsed i → s.EntryUsed j →
    (entryAt s.rootDir i).inodeSector = (entryAt s.rootDir j).inodeSector → i = j
  loaded : ∀ {i n}, i ∈ s.openInodes → s.inodes.get i = some n → n.data = s.inodeAt n.sector

/-- `free_map_allocate` marks and hands out sectors that were not marked and that no inode in use
    owns; the inodes in use stay in order. -/
def AllocatesFree (s : Fs) : Prop :=
  ∀ cnt sector t, (freeMapAllocate cnt).run s = .ok (some sector, t) → ExtentsOk t ∧
    ∀ x, sector ≤ x → x < sector + cnt →
      s.freeMap.bits x = false ∧ t.freeMap.bits x = true ∧ ∀ k, s.InUse k → ¬ s.Owns k x

/-! ## The invariant -/

namespace Inv

section

variable (h : Inv s nodes refs)
include h

theorem inodeAt (hk : nodes k = some nd) : s.inodeAt k = nd.data :=
  (h.stored _ _ hk).ofBytes h.layout h.size_le hk

theorem fileBytes (hk : nodes k = some nd) : s.fileBytes k = nd.content := by
  unfold Fs.fileBytes
  rw [h.inodeAt hk]
  exact (h.stored _ _ hk).content

theorem rootDir (hroot : nodes 1 = some nd) : s.rootDir = nd.content := h.fileBytes hroot

theorem entryUsed_iff (hroot : nodes 1 = some nd) (i : ℕ) :
    s.EntryUsed i ↔ i < 16 ∧ (entryAt nd.content i).inUse = true := by
  obtain ⟨root, hroot', hdir⟩ := h.root
  cases hroot.symm.trans hroot'
  unfold Fs.EntryUsed
  rw [h.rootDir hroot, hdir.length_eq]
  exact and_congr_left fun _ => by omega

theorem inUse_node (hk : s.InUse k) : ∃ nd, nodes k = some nd := by
  obtain ⟨root, hroot, -⟩ := h.root
  rcases hk with hk | ⟨i, hi, rfl⟩ | ⟨i, -, n, hn, rfl⟩
  · exact h.kept_node (.inl hk)
  · rw [h.entryUsed_iff hroot] at hi
    rw [h.rootDir hroot]
    exact h.kept_node (.inr ⟨root, hroot, i, hi.1, hi.2, rfl⟩)
  · obtain ⟨nd, hnd, -⟩ := h.node hn
    exact ⟨nd, hnd⟩

theorem extent_iff (hk : nodes k = some nd) (x : ℕ) : (s.inodeAt k).Extent x ↔ nd.Has x := by
  rw [h.inodeAt hk]
  exact Iff.rfl

theorem owns_iff (hk : nodes k = some nd) (x : ℕ) : s.Owns k x ↔ x = k ∨ nd.Has x :=
  or_congr Iff.rfl (h.extent_iff hk x)

theorem extentsOk : ExtentsOk s where
  inside := by
    intro k x hk hx
    obtain ⟨nd, hnd⟩ := h.inUse_node hk
    rcases (h.owns_iff hnd x).1 hx with rfl | hx
    · exact h.layout.inode_lt hnd
    · exact lt_of_lt_of_le hx.2 (h.layout.data_le hnd)
  marked := by
    intro k x hk hx
    obtain ⟨nd, hnd⟩ := h.inUse_node hk
    rcases (h.owns_iff hnd x).1 hx with rfl | hx
    · exact h.layout.inode_marked hnd
    · exact h.layout.data_marked hnd hx
  apart := by
    intro k k' x hk hk' hx hx'
    obtain ⟨nd, hnd⟩ := h.inUse_node hk
    obtain ⟨nd', hnd'⟩ := h.inUse_node hk'
    rcases (h.owns_iff hnd x).1 hx with rfl | hx <;> rcases (h.owns_iff hnd' _).1 hx' with hx' | hx'
    · exact hx'
    · exact absurd hx' (h.layout.inode_data hnd hnd')
    · exact absurd (hx' ▸ hx) (h.layout.inode_data hnd' hnd)
    · exact h.layout.data_data hnd hnd' hx hx'
  inode_apart := by
    intro k hk
    obtain ⟨nd, hnd⟩ := h.inUse_node hk
    rw [h.extent_iff hnd]
    exact h.layout.inode_data hnd hnd
  named_once := by
    intro i j hi hj heq
    obtain ⟨root, hroot, hdir⟩ := h.root
    rw [h.entryUsed_iff hroot] at hi hj
    rw [h.rootDir hroot] at heq
    exact hdir.sector_inj hi.1 hj.1 hi.2 hj.2 heq
  loaded := by
    intro i n _ hn
    obtain ⟨nd, hnd, hdata⟩ := h.node hn
    rw [h.inodeAt hnd, hdata]

theorem allocatesFree : AllocatesFree s := by
  intro cnt sector t hrun
  rcases h.allocate cnt with ⟨k, t', nodes', hrun', h', -, -, -, hown, -⟩ | hrun'
  · obtain ⟨hk, rfl⟩ := ok_inj (hrun'.symm.trans hrun)
    cases hk
    refine ⟨h'.extentsOk, fun x h1 h2 => ?_⟩
    obtain ⟨hfree, hmark, -, hun⟩ := hown x h1 h2
    refine ⟨hfree, hmark, fun j hj hx => ?_⟩
    rw [h.extentsOk.marked hj hx] at hfree
    cases hfree
  · cases hrun'.symm.trans hrun

end

end Inv

/-! ## The store, seen on the disk -/

/-- An entry of the root directory on the disk has the name. -/
def Fs.Lists (s : Fs) (name : Name) (k : ℕ) : Prop :=
  ∃ i, s.EntryUsed i ∧ cstr (entryAt s.rootDir i).name = name.val ∧ (entryAt s.rootDir i).inodeSector = k

/-- The root directory on the disk has an entry in use with the name. -/
def Fs.Named (s : Fs) (name : Name) : Prop := ∃ i, s.EntryUsed i ∧ cstr (entryAt s.rootDir i).name = name.val

instance (s : Fs) (i : ℕ) : Decidable (s.EntryUsed i) := inferInstanceAs (Decidable (_ ∧ _))

instance (s : Fs) (name : Name) : Decidable (s.Named name) :=
  decidable_of_iff (∃ i < s.rootDir.length, s.EntryUsed i ∧ cstr (entryAt s.rootDir i).name = name.val)
    ⟨fun ⟨i, _, h⟩ => ⟨i, h⟩, fun ⟨i, h⟩ => ⟨i, by have := h.1.1; omega, h⟩⟩

instance (s : Fs) (name : Name) (k : ℕ) : Decidable (s.Lists name k) :=
  decidable_of_iff (∃ i < s.rootDir.length, s.EntryUsed i ∧ cstr (entryAt s.rootDir i).name = name.val ∧
    (entryAt s.rootDir i).inodeSector = k)
    ⟨fun ⟨i, _, h⟩ => ⟨i, h⟩, fun ⟨i, h⟩ => ⟨i, by have := h.1.1; omega, h⟩⟩

namespace Sim
variable {a : Store} {file pos : ℕ}

section

variable (h : Sim s a)
include h

theorem memory : s.MemoryOk := by
  obtain ⟨nodes, h⟩ := h
  exact h.inv.memory

theorem handles : a.handles = s.handle := by
  obtain ⟨nodes, h⟩ := h
  exact h.handles

theorem isHandle (hf : a.handles file = some (k, pos)) : s.IsHandle file := by
  rw [h.handles] at hf
  obtain ⟨f, hne, -, hf, -⟩ := handle_eq_some hf
  exact ⟨by rw [hf]; rfl, hne⟩

theorem lists_iff (name : Name) (k : ℕ) : s.Lists name k ↔ a.names name = some k := by
  obtain ⟨nodes, h⟩ := h
  obtain ⟨root, hroot, -⟩ := h.inv.root
  rw [h.names, bound_iff hroot]
  unfold Fs.Lists
  rw [h.inv.rootDir hroot]
  constructor
  · rintro ⟨i, hi, hname, hk⟩
    obtain ⟨hlt, huse⟩ := (h.inv.entryUsed_iff hroot i).1 hi
    exact ⟨i, hlt, hasName_iff.2 ⟨huse, hname⟩, hk⟩
  · rintro ⟨i, hi, hname, hk⟩
    obtain ⟨huse, hname⟩ := hasName_iff.1 hname
    exact ⟨i, (h.inv.entryUsed_iff hroot i).2 ⟨hi, huse⟩, hname, hk⟩

theorem named_iff (name : Name) : s.Named name ↔ a.names name ≠ none := by
  rw [Option.ne_none_iff_exists']
  constructor
  · rintro ⟨i, hi, hname⟩
    exact ⟨_, (h.lists_iff name _).1 ⟨i, hi, hname, rfl⟩⟩
  · rintro ⟨k, hk⟩
    obtain ⟨i, hi, hname, -⟩ := (h.lists_iff name k).2 hk
    exact ⟨i, hi, hname⟩

theorem entry_once {i j : ℕ} (hi : s.EntryUsed i) (hj : s.EntryUsed j)
    (hname : cstr (entryAt s.rootDir i).name = cstr (entryAt s.rootDir j).name) : i = j := by
  obtain ⟨nodes, h⟩ := h
  obtain ⟨root, hroot, hdir⟩ := h.inv.root
  rw [h.inv.rootDir hroot] at hname
  obtain ⟨hi, hui⟩ := (h.inv.entryUsed_iff hroot i).1 hi
  obtain ⟨hj, huj⟩ := (h.inv.entryUsed_iff hroot j).1 hj
  exact hdir.name_inj hi hj hui huj hname

theorem extentsOk : ExtentsOk s := by
  obtain ⟨nodes, h⟩ := h
  exact h.inv.extentsOk

theorem fileBytes (hf : a.handles file = some (k, pos)) : s.fileBytes k = a.bytes k := by
  have hhandle := h.isHandle hf
  obtain ⟨nodes, h⟩ := h
  obtain ⟨f, k', nd, -, -, -, hnd, hbytes, hf'⟩ := h.isHandle hhandle
  obtain ⟨rfl, -⟩ := Prod.mk.inj (Option.some.inj (hf.symm.trans hf'))
  rw [hbytes, h.inv.fileBytes hnd]

end

end Sim

/-- A file system in use: a device was formatted, and some calls were made. -/
def Fs.Formatted (s : Fs) : Prop :=
  ∃ disk junk size s0 calls, size ≤ 2 ^ 31 ∧
    (filesysInit true junk).run (.boot disk size fun _ => true) = .ok ((), s0) ∧ Runs Fs.Step s0 calls s

theorem Fs.Formatted.sim (h : s.Formatted) : ∃ a, Sim s a := by
  obtain ⟨disk, junk, size, s0, calls, hle, hformat, hruns⟩ := h
  obtain ⟨a, -, hsim⟩ := hruns.simulate sim_simulates (sim_of_filesysInit hle hformat)
  exact ⟨a, hsim⟩

/-- **Sectors have one owner.**  In every state that calls reach from a formatted device, the
    inodes in use own sectors that are apart, inside the device and marked; what
    `free_map_allocate` hands out is free; and every call completes, so that no assertion fails. -/
theorem extents_ok {disk : ℕ → UInt8} {junk : ℕ → Bool} {size : ℕ} {s0 : Fs} (hle : size ≤ 2 ^ 31)
    (hformat : (filesysInit true junk).run (.boot disk size fun _ => true) = .ok ((), s0)) :
    ∀ calls s, Runs Fs.Step s0 calls s →
      ExtentsOk s ∧ AllocatesFree s ∧ ∀ op : Op, op.Enabled s → op.SizeOk → ∃ r t, op.exec.run s = .ok (r, t) := by
  intro calls s hruns
  obtain ⟨a, -, hsim⟩ := hruns.simulate sim_simulates (sim_of_filesysInit hle hformat)
  obtain ⟨nodes, hrel⟩ := hsim
  refine ⟨hrel.inv.extentsOk, hrel.inv.allocatesFree, fun op he hsize => ?_⟩
  obtain ⟨r, t, -, hcall, -⟩ := Sim.call ⟨nodes, hrel⟩ op he hsize
  exact ⟨r, t, hcall⟩

/-- The file is removed again. -/
def createRemove : List (Op × Result) := readBack ++ [(.close 2, .done), (.remove nameE, .bool true)]

theorem extents_ok_create :
    ∃ s0 t, (filesysInit true fun _ => false).run (.boot (fun _ => 0) 16 fun _ => true) = .ok ((), s0) ∧
      Runs Fs.Step s0 createRemove t ∧ ExtentsOk t ∧ AllocatesFree t := by
  obtain ⟨_, s0, hformat, hrun⟩ : Prog.Returns (filesysInit true fun _ => false) (.boot (fun _ => 0) 16 fun _ => true)
      fun _ s0 => (createRemove.foldlM Fs.expect s0).isSome = true := .of_eval (by decide +kernel)
  obtain ⟨t, ht⟩ := Option.isSome_iff_exists.1 hrun
  have hruns := Runs.of_eval Fs.step_of_expect ht
  obtain ⟨hext, halloc, -⟩ := extents_ok (by decide) hformat _ t hruns
  exact ⟨s0, t, hformat, hruns, hext, halloc⟩

/-! ## Names -/

theorem Store.names_of_runs {calls : List (Op × Result)} {a b : Store} (h : Runs Store.Step a calls b)
    (ha : ∀ n : Name, a.names n ≠ none → n.val ≠ [] ∧ n.val.length ≤ 14) :
    ∀ n : Name, b.names n ≠ none → n.val ≠ [] ∧ n.val.length ≤ 14 := by
  induction h with
  | nil => exact ha
  | @cons a1 _ _ _ _ hstep _ ih =>
    refine ih fun n hn => ?_
    cases hstep with
    | @create name _ id hne hlen =>
      change update a1.names name (some id) n ≠ none at hn
      by_cases heq : n = name
      · exact heq ▸ ⟨hne, hlen⟩
      · rw [update_of_ne heq] at hn
        exact ha n hn
    | @remove name =>
      change update a1.names name none n ≠ none at hn
      by_cases heq : n = name
      · rw [heq, update_self] at hn
        exact absurd rfl hn
      · rw [update_of_ne heq] at hn
        exact ha n hn
    | _ => exact ha n hn

theorem Fs.Formatted.open_name {name : Name} {f : ℕ} (h : s.Formatted)
    (hopen : (filesysOpen name).run s = .ok (some f, t)) : name.val ≠ [] ∧ name.val.length ≤ 14 := by
  obtain ⟨disk, junk, size, s0, calls, hle, hformat, hruns⟩ := h
  obtain ⟨a, hstore, hsim⟩ := hruns.simulate sim_simulates (sim_of_filesysInit hle hformat)
  have hstep : Fs.Step s (.open_ name, .file (some f)) t := ⟨trivial, (run_bind_ok hopen).trans rfl⟩
  obtain ⟨b, hstep, -⟩ := sim_simulates hsim hstep
  refine Store.names_of_runs hstore (fun n hn => absurd rfl hn) name ?_
  cases hstep with
  | open_ hname =>
    rw [hname]
    exact Option.some_ne_none _

/-! ## A device with two files -/

namespace Files

/-- The names of two files. -/
def nameA : Name := ⟨[97], by decide⟩

def nameB : Name := ⟨[98], by decide⟩

/-- A device of sixteen sectors with two files. -/
def twoFiles : Fs :=
  match (do filesysInit true fun _ => false
            let _ ← filesysCreate nameA 3
            let _ ← filesysCreate nameB 3 : FsM Unit).run (.boot (fun _ => 0) 16 fun _ => true) with
  | .ok (_, fs) => fs
  | .error _ => .boot (fun _ => 0) 16 fun _ => true

theorem twoFiles_formatted : twoFiles.Formatted := by
  obtain ⟨s0, -, -, hinit, -⟩ := filesysInit_run (fun _ => 0) (fun _ => false) (show 4 ≤ 16 by decide) (by decide)
  have hsize : (0 : ℤ) ≤ 3 ∧ (3 : ℤ) < 2 ^ 31 := by decide
  obtain ⟨r1, s1, a1, hrun1, -, hsim1⟩ := (sim_of_filesysInit (by decide) hinit).call (.create nameA 3) hsize.2 hsize.1
  obtain ⟨r2, s2, a2, hrun2, -, -⟩ := hsim1.call (.create nameB 3) hsize.2 hsize.1
  obtain ⟨b1, t1, hcreate1, hret1⟩ := ok_of_run_bind hrun1
  obtain ⟨rfl, rfl⟩ := ok_inj hret1
  obtain ⟨b2, t2, hcreate2, hret2⟩ := ok_of_run_bind hrun2
  obtain ⟨rfl, rfl⟩ := ok_inj hret2
  refine ⟨fun _ => 0, fun _ => false, 16, s0, [(.create nameA 3, .bool b1), (.create nameB 3, .bool b2)], by decide, hinit, ?_⟩
  have heq : twoFiles = t2 := by
    unfold twoFiles
    rw [run_bind_ok hinit, run_bind_ok hcreate1, run_bind_ok hcreate2]
    rfl
  rw [heq]
  exact .cons ⟨hsize.2, hrun1⟩ (.cons ⟨hsize.2, hrun2⟩ .nil)

end Files

end Pintos
