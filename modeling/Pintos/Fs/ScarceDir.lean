/-
  `dir_add` when memory is missing (filesys/directory.c).

  Each entry is read and written through a bounce buffer, so that every slot that a scan looks at costs one
  answer of `malloc`.  A read without memory is short, which both scans take for the end of the directory.
-/
import Pintos.Fs.Directory

namespace Pintos

open Lib Prog

variable {s t : Fs} {n : Inode} {i j k m : ℕ} {c : List UInt8}

/-! ## Adding -/

/-- What `dir_add` may do to a directory of `m` slots with the content `c`: the slots in use keep their
    names and sectors, the names stay distinct, and a call that fails adds nothing. -/
structure AddSafe (n : Inode) (m : ℕ) (c : List UInt8) (r : Bool) (t : Fs) : Prop where
  kept : ∀ j < m, (entryAt c j).inUse = true →
    (entryAt (slice t.disk (512 * n.data.start) c.length) j).Binds (cstr (entryAt c j).name) (entryAt c j).inodeSector
  distinct : DistinctNames m (slice t.disk (512 * n.data.start) c.length)
  failed : r = false → ∀ j < m, (entryAt (slice t.disk (512 * n.data.start) c.length) j).inUse = (entryAt c j).inUse

/-- The answers of `malloc` let `dir_add` write to the slot `k`, where it should not: `lookup` ends at
    `j` without the name, the search for a free slot ends at `k`, the write succeeds, and `k` is in use
    for something else or another slot has the name. -/
structure Clobbers (memory : ℕ → Bool) (m : ℕ) (c : List UInt8) (name : Name) (inodeSector j k : ℕ) : Prop where
  lookup : ScanStops memory (fun x => (entryAt c x).hasName name) m j
  missed : j < m → memory j = false
  free : ScanStops (fun x => memory (answers m j + x)) (fun x => !(entryAt c x).inUse) m k
  lt : k < m
  write : memory (answers m j + (k + 1)) = true
  bad : ((entryAt c k).inUse = true ∧ ¬ (entryAt c k).Binds name.val inodeSector) ∨
    ∃ l < m, l ≠ k ∧ (entryAt c l).hasName name = true

theorem AddSafe.unchanged {r : Bool} (hdistinct : DistinctNames m c) (h : slice t.disk (512 * n.data.start) c.length = c) :
    AddSafe n m c r t := by
  refine ⟨fun j _ huse => ?_, ?_, fun _ j _ => ?_⟩
  · rw [h]
    exact ⟨huse, rfl, rfl⟩
  · rwa [h]
  · rw [h]

theorem addSafe_put_iff {name : Name} {inodeSector : ℕ} {e : DirEntry} (hc : c.length = 20 * m) (hdistinct : DistinctNames m c)
    (hk : k < m) (hlen : e.name.length = 15) (hsector : inodeSector < 2 ^ 32) (he : e.Binds name.val inodeSector)
    (ht : slice t.disk (512 * n.data.start) c.length = overwrite c (20 * k) e.toBytes) :
    AddSafe n m c true t ↔ ¬ (((entryAt c k).inUse = true ∧ ¬ (entryAt c k).Binds name.val inodeSector) ∨
      ∃ l < m, l ≠ k ∧ (entryAt c l).hasName name = true) := by
  obtain ⟨huse, hname, hsec⟩ := he
  have hat := entryAt_put hc.ge hk hlen (hsec ▸ hsector)
  constructor
  · rintro hsafe (⟨hused, hnot⟩ | ⟨l, hl, hlk, hl_name⟩)
    · have hkept := hsafe.kept k hk hused
      rw [ht, hat, if_pos rfl] at hkept
      exact hnot ⟨hused, hkept.2.1.symm.trans hname, hkept.2.2.symm.trans hsec⟩
    · have hdist := hsafe.distinct l hl k hk
      rw [ht, hat, hat, if_neg hlk, if_pos rfl] at hdist
      obtain ⟨hused, hcstr⟩ := hasName_iff.1 hl_name
      exact hlk (hdist hused huse (hcstr.trans hname.symm))
  · intro hgood
    obtain ⟨hslot, hother⟩ := not_or.1 hgood
    have hfresh : ∀ l < m, l ≠ k → (entryAt c l).inUse = true → cstr (entryAt c l).name ≠ name.val :=
      fun l hl hlk hused hcstr => hother ⟨l, hl, hlk, hasName_iff.2 ⟨hused, hcstr⟩⟩
    refine ⟨fun j hj hused => ?_, fun j hj l hl hju hlu hcstr => ?_, nofun⟩
    · rw [ht, hat]
      split_ifs with hjk
      · subst hjk
        obtain ⟨-, hn, hs⟩ := not_not.1 fun hnot => hslot ⟨hused, hnot⟩
        exact ⟨huse, hname.trans hn.symm, hsec.trans hs.symm⟩
      · exact ⟨hused, rfl, rfl⟩
    · rw [ht] at hju hlu hcstr
      rw [hat] at hju hcstr
      rw [hat] at hlu hcstr
      split_ifs at hju hlu hcstr with hjk hlk hlk
      · rw [hjk, hlk]
      · exact absurd (hcstr.symm.trans hname) (hfresh l hl hlk hlu)
      · exact absurd (hcstr.trans hname) (hfresh j hj hjk hju)
      · exact hdistinct j hj l hl hju hlu hcstr

section
variable {dir : Dir} {name : Name} {inodeSector : ℕ}

/-- What `dir_add` does once `lookup` has not found the name. -/
def addEntry (dir : Dir) (name : Name) (inodeSector : ℕ) : FsM Bool := do
  let r ← scanDir dir fun e => !e.inUse
  let e := (DirEntry.ofBytes r.2.2).renew name inodeSector
  let written ← inodeWriteAt dir.inode e.buffer 20 r.2.1
  pure (written == 20)

theorem slice_withMemory (h : Content s i n c) (memory : ℕ → Bool) :
    slice (s.withMemory memory).disk (512 * n.data.start) c.length = c := h.slice_eq

theorem addEntry_safe_iff (h : Content s dir.inode n c) (hc : c.length = 20 * m) (hdistinct : DistinctNames m c)
    (hlen : name.val.length ≤ 14) (hsector : inodeSector < 2 ^ 32) :
    Prog.Returns (addEntry dir name inodeSector) s (AddSafe n m c) ↔
      ¬ (n.denyWriteCnt = 0 ∧ ∃ k < m, ScanStops s.memory (fun x => !(entryAt c x).inUse) m k ∧ s.memory (k + 1) = true ∧
        (((entryAt c k).inUse = true ∧ ¬ (entryAt c k).Binds name.val inodeSector) ∨
          ∃ l < m, l ≠ k ∧ (entryAt c l).hasName name = true)) := by
  obtain ⟨res, t, hscan, k, hstops, -, hofs, hlen', -, rfl⟩ := scanDir_exact (fun e => !e.inUse) h hc
  simp only [Nat.zero_add] at hstops hofs
  set t := s.withMemory fun x => s.memory (answers m k + x) with ht
  have hcontent : Content t dir.inode n c := h.congr ⟨_, rfl⟩
  set e := (DirEntry.ofBytes res.2.2).renew name inodeSector with he
  have hname : e.name.length = 15 := length_strlcpy hlen (length_name_ofBytes hlen')
  have hbinds : e.Binds name.val inodeSector := ⟨rfl, cstr_strlcpy hlen, rfl⟩
  have hrest : (addEntry dir name inodeSector).run s =
      (do let written ← inodeWriteAt dir.inode e.buffer 20 (20 * k); pure (written == 20) : FsM Bool).run t := by
    unfold addEntry
    rw [run_bind_ok hscan, hofs]
  -- a write of nothing
  have hnone : ∀ {u}, (inodeWriteAt dir.inode e.buffer 20 (20 * k)).run t = .ok (0, u) → SameButMemory t u →
      Prog.Returns (addEntry dir name inodeSector) s (AddSafe n m c) := by
    rintro u hwrite ⟨memory, rfl⟩
    exact ⟨false, _, hrest.trans (run_bind_ok hwrite), .unchanged hdistinct (slice_withMemory hcontent memory)⟩
  by_cases hw : n.denyWriteCnt = 0
  · rcases Nat.eq_or_lt_of_le hstops.le with rfl | hk
    · refine iff_of_true (hnone (hcontent.writeEnd hw hc _) (.refl t)) ?_
      rintro ⟨-, k', hk', hstops', -⟩
      exact absurd (hstops'.unique hstops) hk'.ne
    · have hwrite := hcontent.writeEntry hw hc.ge hk hname
      have hanswer : t.memory 0 = s.memory (k + 1) := by
        change s.memory (answers m k + 0) = _
        rw [answers, Nat.min_eq_left hk, Nat.add_zero]
      rw [hanswer] at hwrite
      cases hm : s.memory (k + 1) with
      | false =>
        rw [hm, if_neg Bool.false_ne_true] at hwrite
        refine iff_of_true (hnone hwrite ⟨_, rfl⟩) ?_
        rintro ⟨-, k', -, hstops', hm', -⟩
        rw [hstops'.unique hstops, hm] at hm'
        cases hm'
      | true =>
        rw [hm, if_pos rfl] at hwrite
        have hrun := hrest.trans (run_bind_ok hwrite)
        have hslice : slice (store t.disk (512 * n.data.start + 20 * k) e.toBytes) (512 * n.data.start) c.length =
            overwrite c (20 * k) e.toBytes := by
          rw [slice_store_within (by rw [DirEntry.length_toBytes hname]; omega), hcontent.slice_eq]
        have hput := addSafe_put_iff hc hdistinct hk hname hsector hbinds (show slice (Fs.withMemory (t.withDisk
          (store t.disk (512 * n.data.start + 20 * k) e.toBytes)) fun n => t.memory (n + 1)).disk _ _ = _ from hslice)
        constructor
        · rintro ⟨r, u, hrun', hsafe⟩ ⟨-, k', -, hstops', -, hbad⟩
          obtain ⟨rfl, rfl⟩ := ok_inj (hrun.symm.trans hrun')
          rw [hstops'.unique hstops] at hbad
          exact hput.1 hsafe hbad
        · intro hgood
          exact ⟨true, _, hrun, hput.2 fun hbad => hgood ⟨hw, k, hk, hstops, hm, hbad⟩⟩
  · refine iff_of_true (hnone ?_ (.refl t)) fun hbad => hw hbad.1
    unfold inodeWriteAt
    rw [run_bind_ok (getInode_run hcontent.get), if_pos hw]
    rfl

/-- **`dir_add` is safe** exactly when its name is not valid, or writes to the directory are denied, or
    the answers of `malloc` do not let it write where it should not. -/
theorem dirAdd_safe_iff (h : Content s dir.inode n c) (hc : c.length = 20 * m) (hdistinct : DistinctNames m c)
    (name : Name) (hsector : inodeSector < 2 ^ 32) :
    Prog.Returns (dirAdd dir name inodeSector) s (AddSafe n m c) ↔
      name.val = [] ∨ 14 < name.val.length ∨ n.denyWriteCnt ≠ 0 ∨
        ∀ j k, ¬ Clobbers s.memory m c name inodeSector j k := by
  unfold dirAdd
  by_cases hname : name.val = [] ∨ 14 < name.val.length
  · rw [if_pos hname]
    exact iff_of_true (.pure (.unchanged hdistinct h.slice_eq)) (hname.imp id .inl)
  · rw [if_neg hname]
    obtain ⟨hne, hlen⟩ := not_or.1 hname
    obtain ⟨res, t, hscan, j, hstops, hfound, -, -, -, rfl⟩ := scanDir_exact (DirEntry.hasName name) h hc
    simp only [Nat.zero_add] at hstops hfound
    have hlookup : (lookup dir name).run s = .ok (if res.1 then some (.ofBytes res.2.2, res.2.1) else none,
        s.withMemory fun x => s.memory (answers m j + x)) := by
      unfold lookup
      rw [run_bind_ok hscan]
      rfl
    have hcontent : Content (s.withMemory fun x => s.memory (answers m j + x)) dir.inode n c := h.congr ⟨_, rfl⟩
    cases hres : res.1 with
    | true =>
      rw [hres, if_pos rfl] at hlookup
      refine iff_of_true (.bind_run hlookup (.pure (.unchanged hdistinct hcontent.slice_eq))) (.inr (.inr (.inr ?_)))
      intro j' k hclob
      obtain rfl := hclob.lookup.unique hstops
      obtain ⟨hlt, hmem, -⟩ := hfound.1 hres
      rw [hclob.missed hlt] at hmem
      cases hmem
    | false =>
      rw [hres, if_neg Bool.false_ne_true] at hlookup
      have hmissed : j < m → s.memory j = false := by
        intro hlt
        rcases hstops.at_stop hlt with hm | hp
        · exact hm
        · by_contra hm
          rw [hfound.2 ⟨hlt, Bool.eq_true_of_not_eq_false hm, hp⟩] at hres
          cases hres
      refine (Prog.Returns.bind_run_iff hlookup).trans ((addEntry_safe_iff hcontent hc hdistinct (by omega) hsector).trans ?_)
      constructor
      · intro hgood
        by_cases hw : n.denyWriteCnt = 0
        · refine .inr (.inr (.inr fun j' k hclob => hgood ⟨hw, k, hclob.lt, ?_⟩))
          obtain rfl := hclob.lookup.unique hstops
          exact ⟨hclob.free, hclob.write, hclob.bad⟩
        · exact .inr (.inr (.inl hw))
      · rintro hgood ⟨hw, k, hk, hfree, hwrite, hbad⟩
        rcases hgood with h0 | h14 | hdeny | hgood
        · exact hne h0
        · exact hlen h14
        · exact hdeny hw
        · exact hgood j k ⟨hstops, hmissed, hfree, hk, hwrite, hbad⟩

end

/-! ## A directory of two slots -/

def twoSlotsDisk : ℕ → UInt8 := store (fun _ => 0) 512 (DirEntry.toBytes ⟨5, 97 :: List.replicate 14 0, true⟩)

/-- The slot 0 of the directory is in use for the name `a`. -/
def twoSlots (memory : ℕ → Bool) : Fs where
  disk := twoSlotsDisk
  size := 8
  freeMap := ⟨8, fun _ => true⟩
  freeMapFile := none
  openInodes := [0]
  inodes := Heap.empty.alloc ⟨0, 1, false, 0, ⟨1, 40, inodeMagic⟩⟩
  files := .empty
  memory := memory

def twoSlotsInode : Inode := ⟨0, 1, false, 0, ⟨1, 40, inodeMagic⟩⟩

def twoSlotsContent : List UInt8 := DirEntry.toBytes ⟨5, 97 :: List.replicate 14 0, true⟩ ++ List.replicate 20 0

theorem twoSlots_content (memory : ℕ → Bool) : Content (twoSlots memory) 0 twoSlotsInode twoSlotsContent :=
  ⟨rfl, ⟨by decide, by decide, show 1 + sectorsOf 40 ≤ 8 by decide, show 8 < 2 ^ 32 by decide⟩, rfl,
    show slice twoSlotsDisk 512 40 = twoSlotsContent by decide +kernel⟩

theorem twoSlots_distinct : DistinctNames 2 twoSlotsContent := by
  unfold DistinctNames
  decide +kernel

theorem dirAdd_safe_free : Prog.Returns (dirAdd ⟨0⟩ ⟨[98], by decide⟩ 6) (twoSlots fun _ => true)
    (AddSafe twoSlotsInode 2 twoSlotsContent) := by
  refine (dirAdd_safe_iff (twoSlots_content _) rfl twoSlots_distinct _ (by decide)).2 (.inr (.inr (.inr ?_)))
  intro j k hclob
  have hfree : ScanStops (fun _ => true) (fun x => !(entryAt twoSlotsContent x).inUse) 2 1 :=
    ⟨by decide, by decide +kernel, by decide +kernel⟩
  obtain rfl := hclob.free.unique hfree
  have hgood : ¬ (((entryAt twoSlotsContent 1).inUse = true ∧ ¬ (entryAt twoSlotsContent 1).Binds [98] 6) ∨
      ∃ l < 2, l ≠ 1 ∧ (entryAt twoSlotsContent l).hasName ⟨[98], by decide⟩ = true) := by
    unfold DirEntry.Binds
    decide +kernel
  exact hgood hclob.bad

/-- The read of the slot 0 fails when a free slot is searched: the name `b` takes the place of `a`.  It
    fails when the name `a` is looked up: the name is added a second time. -/
theorem dirAdd_clobbers : DistinctNames 2 twoSlotsContent ∧
    (∀ memory, Content (twoSlots memory) 0 twoSlotsInode twoSlotsContent) ∧
    (∃ t, (dirAdd ⟨0⟩ ⟨[98], by decide⟩ 6).run (twoSlots fun x => x ≠ 2) = .ok (true, t) ∧
      ¬ AddSafe twoSlotsInode 2 twoSlotsContent true t) ∧
    ∃ t, (dirAdd ⟨0⟩ ⟨[97], by decide⟩ 6).run (twoSlots fun x => x ≠ 0) = .ok (true, t) ∧
      ¬ DistinctNames 2 (slice t.disk 512 40) := by
  refine ⟨twoSlots_distinct, twoSlots_content, ?_, ?_⟩
  · obtain ⟨r, t, hrun, hp⟩ : Prog.Returns (dirAdd ⟨0⟩ ⟨[98], by decide⟩ 6) (twoSlots fun x => x ≠ 2) fun r t =>
        (r && cstr (entryAt (slice t.disk 512 40) 0).name == [98]) = true := .of_eval (by decide +kernel)
    rw [Bool.and_eq_true, beq_iff_eq] at hp
    obtain ⟨rfl, hname⟩ := hp
    refine ⟨t, hrun, fun hsafe => ?_⟩
    have hkept := (hsafe.kept 0 (by decide) (by decide +kernel)).2.1
    exact absurd (hname.symm.trans hkept) (by decide +kernel)
  · obtain ⟨r, t, hrun, hp⟩ : Prog.Returns (dirAdd ⟨0⟩ ⟨[97], by decide⟩ 6) (twoSlots fun x => x ≠ 0) fun r t =>
        (r && (entryAt (slice t.disk 512 40) 0).hasName ⟨[97], by decide⟩ &&
          (entryAt (slice t.disk 512 40) 1).hasName ⟨[97], by decide⟩) = true := .of_eval (by decide +kernel)
    rw [Bool.and_eq_true, Bool.and_eq_true, hasName_iff, hasName_iff] at hp
    obtain ⟨⟨rfl, huse, hname⟩, huse', hname'⟩ := hp
    refine ⟨t, hrun, fun hdistinct => ?_⟩
    exact absurd (hdistinct 0 (by decide) 1 (by decide) huse huse' (hname.trans hname'.symm)) (by decide)

end Pintos
