/-
  Every sequence of `malloc`, `calloc`, `realloc` and `free` keeps the blocks apart.
-/
import Pintos.Malloc.Arenas

namespace Pintos.Malloc

open Lib Heap Function List

structure HeapInv (s : Heap) : Prop where
  pages : Pages s.arenas s.pages
  blocks : Blocks s.arenas s.freeList s.live none
  asserts : s.failed = false

variable {s s' : Heap} {p i n b x size requested : ℕ} {d : DescPtr} {a : Arena} {answer : Option ℕ}

theorem assert_of {q : Prop} [Decidable q] (h : q) : s.assert q = s := by
  unfold Heap.assert
  rw [decide_eq_false (not_not.2 h), Bool.or_false]

theorem setFree_self (s : Heap) (d : DescPtr) : s.setFree d (s.freeList d) = s := by
  unfold Heap.setFree
  rw [update_eq_self]

theorem setFree_setFree (s : Heap) (d : DescPtr) (l l' : List ℕ) : (s.setFree d l).setFree d l' = s.setFree d l' := by
  unfold Heap.setFree
  dsimp only
  rw [update_idem]

/-! ## The parts of the functions -/

theorem arenaToBlockOk_of (h : s.arenas p = some ⟨some d, n⟩) (hi : i < d.blocksPerArena) : s.arenaToBlockOk p i = true := by
  unfold arenaToBlockOk
  rw [h]
  exact decide_eq_true hi

theorem addLoop_eq (h : s.arenas p = some ⟨some d, n⟩) : ∀ {k}, k ≤ d.blocksPerArena →
    (List.range k).foldl (addBlock p d) s = s.setFree d (s.freeList d ++ (List.range k).map (arenaToBlock p d))
  | 0, _ => by
    rw [range_zero, map_nil, append_nil, setFree_self]
    rfl
  | k + 1, hk => by
    rw [range_succ, foldl_append, addLoop_eq h (Nat.le_of_succ_le hk), map_append, ← append_assoc]
    change addBlock p d (s.setFree d _) k = _
    unfold addBlock
    rw [assert_of (arenaToBlockOk_of (s := s.setFree d _) h hk), setFree_setFree]
    change s.setFree d (update s.freeList d _ d ++ _) = _
    rw [update_self]
    rfl

theorem removeLoop_eq (h : s.arenas p = some ⟨some d, n⟩) (hnodup : (s.freeList d).Nodup)
    (hfree : ∀ i < d.blocksPerArena, arenaToBlock p d i ∈ s.freeList d) : ∀ {k}, k ≤ d.blocksPerArena →
    (List.range k).foldl (removeBlock p d) s = s.setFree d ((s.freeList d).diff ((List.range k).map (arenaToBlock p d)))
  | 0, _ => by
    rw [range_zero, map_nil, diff_nil, setFree_self]
    rfl
  | k + 1, hk => by
    have hmem : arenaToBlock p d k ∈ (s.freeList d).diff ((List.range k).map (arenaToBlock p d)) := by
      rw [hnodup.mem_sdiff_iff]
      refine ⟨hfree k hk, fun hx => ?_⟩
      obtain ⟨j, hj, heq⟩ := mem_map.1 hx
      exact absurd (block_inj heq) (mem_range.1 hj).ne
    rw [range_succ, foldl_append, removeLoop_eq h hnodup hfree (Nat.le_of_succ_le hk), map_append, diff_append]
    have hlist : (s.setFree d ((s.freeList d).diff ((List.range k).map (arenaToBlock p d)))).freeList d = _ :=
      update_self ..
    change removeBlock p d (s.setFree d _) k = _
    unfold removeBlock
    rw [hlist, assert_of (arenaToBlockOk_of (s := s.setFree d _) h hk), assert_of hmem, setFree_setFree, map_singleton, diff_cons, diff_nil]

theorem diff_eq_filter {full : Option ℕ} (h : Blocks s.arenas s.freeList s.live full) (p : ℕ) (d : DescPtr) :
    (s.freeList d).diff ((List.range d.blocksPerArena).map (arenaToBlock p d)) =
      (s.freeList d).filter fun x => x / pgsize ≠ p := by
  rw [(h.free_nodup d).sdiff_eq_filter]
  refine filter_congr fun x hx => ?_
  rw [decide_eq_decide]
  refine not_congr ⟨fun hmem => ?_, fun hdiv => ?_⟩
  · obtain ⟨i, hi, rfl⟩ := mem_map.1 hmem
    exact block_div p (mem_range.1 hi)
  · obtain ⟨m, i, -, hi, heq⟩ := h.free_block hx
    rw [hdiv] at heq
    exact mem_map.2 ⟨i, mem_range.2 hi, heq.symm⟩

theorem blockToArena_of_block (h : Pages s.arenas s.pages) (hb : IsBlock s.arenas d b)
    (hp : s.arenas (b / pgsize) = some ⟨some d, n⟩) : s.blockToArena b = some ⟨some d, n⟩ := by
  obtain ⟨m, i, -, hi, heq⟩ := hb
  have hmod : b % pgsize = arenaSize + i * d.blockSize := by
    rw [heq]
    exact block_mod _ hi
  have hend := block_end 0 hi
  have hfacts := d.facts
  unfold blockToArena
  rw [hp]
  dsimp only
  rw [if_pos]
  refine ⟨h.page_ne hp, fun d' hd' => ?_, nofun⟩
  obtain rfl := Option.mem_some_iff.1 hd'
  have hsub : (b % pgsize + 2 ^ 32 - arenaSize) % 2 ^ 32 = i * d.blockSize := by
    rw [hmod]
    unfold arenaToBlock pgsize arenaSize at *
    omega
  rw [hsub, Nat.mul_mod_left]

theorem blockToArena_of_big (h : Pages s.arenas s.pages) (hp : s.arenas (b / pgsize) = some ⟨none, n⟩)
    (hmod : b % pgsize = arenaSize) : s.blockToArena b = some ⟨none, n⟩ := by
  unfold blockToArena
  rw [hp]
  dsimp only
  rw [if_pos]
  exact ⟨h.page_ne hp, nofun, fun _ => hmod⟩

theorem pallocGet_cases (s : Heap) (cnt : ℕ) (answer : Option ℕ) : s.pallocGetMultiple cnt answer = (none, s) ∨
    ∃ p, s.Available p cnt ∧
      s.pallocGetMultiple cnt answer = (some p, { s with pages := (List.range cnt).map (p + ·) ++ s.pages }) := by
  cases answer with
  | none => exact .inl rfl
  | some p =>
    unfold pallocGetMultiple
    dsimp only
    split_ifs with h
    · exact .inr ⟨p, h, rfl⟩
    · exact .inl rfl

theorem Pages.arenas_eq_none {arenas : ℕ → Option Arena} {pages : List ℕ} (h : Pages arenas pages) (hp : p ∉ pages) : arenas p = none := by
  cases ha : arenas p with
  | none => rfl
  | some a => exact absurd (h.mem_of_arena ha (h.pos ha)) hp

theorem popBlock_spec {full : Option ℕ} {l : List ℕ} (hpages : Pages s.arenas s.pages) (hblocks : Blocks s.arenas s.freeList s.live full)
    (hfailed : s.failed = false) (hl : s.freeList d = b :: l) (hfull : ∀ p ∈ full, p = b / pgsize) (hreq : size ≤ d.blockSize) :
    HeapInv (s.popBlock d size).2 ∧ (s.popBlock d size).1 = some b ∧ (s.popBlock d size).2.live = ⟨b, size⟩ :: s.live := by
  have hb : b ∈ s.freeList d := by
    rw [hl]
    exact mem_cons_self
  obtain ⟨n, hn⟩ := (hblocks.free_block hb).arena
  have harena : (s.setFree d l).blockToArena b = some ⟨some d, n⟩ :=
    blockToArena_of_block (s := s.setFree d l) hpages (hblocks.free_block hb) hn
  have hpos : 0 < n := by
    rw [hblocks.cnt hn, countP_pos_iff]
    exact ⟨b, hb, decide_eq_true rfl⟩
  have hcnt : (n + (2 ^ 32 - 1)) % 2 ^ 32 = n - 1 := by
    have := hblocks.cnt_le hn
    have := d.facts
    omega
  unfold popBlock
  rw [hl]
  dsimp only
  rw [harena]
  dsimp only
  rw [hcnt]
  exact ⟨⟨hpages.set hn rfl, hblocks.pop hl hn hfull hreq, hfailed⟩, rfl, rfl⟩

/-! ## Calls -/

theorem findDesc_le (h : findDesc size = some d) : size ≤ d.blockSize := by
  have hd := List.find?_some h
  rwa [decide_eq_true_eq] at hd

theorem pageCnt_spec (h : size < 2 ^ 31) : size + arenaSize ≤ pageCnt size * pgsize ∧ 0 < pageCnt size := by
  unfold pageCnt pgsize arenaSize
  omega

/-- The result is a null pointer, or a new block. -/
def Returned (s : Heap) (size : ℕ) (r : Option ℕ × Heap) : Prop :=
  HeapInv r.2 ∧ (r.1 = none ∧ r.2.live = s.live ∨ ∃ b, r.1 = some b ∧ r.2.live = ⟨b, size⟩ :: s.live)

theorem newArena_spec (h : HeapInv s) (hl : s.freeList d = []) (hreq : size ≤ d.blockSize) (hp : s.Available p 1) :
    Returned s size (((List.range d.blocksPerArena).foldl (addBlock p d)
      ({ s with pages := (List.range 1).map (p + ·) ++ s.pages }.setArena p ⟨some d, d.blocksPerArena⟩)).popBlock d size) := by
  obtain ⟨-, hne, -, hnew⟩ := hp
  have hp := hnew 0 Nat.one_pos
  rw [Nat.add_zero] at hp
  have hnone := h.pages.arenas_eq_none hp
  have hpages : Pages (update s.arenas p (some ⟨some d, d.blocksPerArena⟩)) ((List.range 1).map (p + ·) ++ s.pages) :=
    h.pages.add hne Nat.one_pos hnew
  have hblocks := h.blocks.addArena hnone d
  have hloop := addLoop_eq (p := p) (d := d) (n := d.blocksPerArena)
    (s := { s with pages := (List.range 1).map (p + ·) ++ s.pages }.setArena p ⟨some d, d.blocksPerArena⟩)
    (update_self ..) le_rfl
  rw [hloop]
  have hlist : s.freeList d ++ (List.range d.blocksPerArena).map (arenaToBlock p d) =
      arenaToBlock p d 0 :: (List.range (d.blocksPerArena - 1)).map fun i => arenaToBlock p d (i + 1) := by
    obtain ⟨k, hk⟩ : ∃ k, d.blocksPerArena = k + 1 := Nat.exists_eq_add_one.2 (by have := d.facts; omega)
    rw [hl, hk, range_succ_eq_map, map_cons, map_map, nil_append, Nat.add_sub_cancel]
    rfl
  have hpop := popBlock_spec (s := ({ s with pages := (List.range 1).map (p + ·) ++ s.pages }.setArena p
    ⟨some d, d.blocksPerArena⟩).setFree d (s.freeList d ++ (List.range d.blocksPerArena).map (arenaToBlock p d)))
    hpages hblocks h.asserts (Eq.trans (update_self d _ _) hlist) (fun q hq => ?_) hreq
  · exact ⟨hpop.1, .inr ⟨_, hpop.2.1, hpop.2.2⟩⟩
  · rw [block_div p (by have := d.facts; omega)]
    exact (Option.some.inj hq).symm

theorem malloc_spec (h : HeapInv s) (hsize : size < 2 ^ 31) (answer : Option ℕ) : Returned s size (s.malloc size answer) := by
  unfold Malloc.Heap.malloc
  split_ifs with h0
  · exact ⟨h, .inl ⟨rfl, rfl⟩⟩
  split
  next hd =>
    obtain ⟨hle, hpos⟩ := pageCnt_spec hsize
    rcases pallocGet_cases s (pageCnt size) answer with heq | ⟨p, ⟨-, hne, -, hnew⟩, heq⟩
    · rw [heq]
      exact ⟨h, .inl ⟨rfl, rfl⟩⟩
    · rw [heq]
      have hp := hnew 0 hpos
      rw [Nat.add_zero] at hp
      have hnone := h.pages.arenas_eq_none hp
      have hpages := h.pages.add (a := ⟨none, pageCnt size⟩) hne hpos hnew
      exact ⟨⟨hpages, h.blocks.addBig hnone hle, h.asserts⟩, .inr ⟨_, rfl, rfl⟩⟩
  next d hd =>
    have hreq := findDesc_le hd
    split_ifs with hl
    · unfold newArena
      rcases pallocGet_cases s 1 answer with heq | ⟨p, hp, heq⟩
      · rw [heq]
        exact ⟨h, .inl ⟨rfl, rfl⟩⟩
      · rw [heq]
        exact newArena_spec h hl hreq hp
    · obtain ⟨b, l, hbl⟩ := exists_cons_of_ne_nil hl
      obtain ⟨hinv, hres, hlive⟩ := popBlock_spec h.pages h.blocks h.asserts hbl nofun hreq
      exact ⟨hinv, .inr ⟨b, hres, hlive⟩⟩

theorem calloc_spec {m : ℕ} (h : HeapInv s) (hsize : n * m < 2 ^ 31) (answer : Option ℕ) :
    Returned s (n * m) (s.calloc n m answer) := by
  have hmod : n * m % 2 ^ 32 = n * m := Nat.mod_eq_of_lt (by omega)
  unfold calloc
  dsimp only
  rw [hmod]
  split_ifs with hlt
  · exact ⟨h, .inl ⟨rfl, rfl⟩⟩
  obtain ⟨hinv, hres⟩ := malloc_spec h hsize answer
  rcases hm : s.malloc (n * m) answer with ⟨_ | b, s'⟩
  · rw [hm] at hinv hres
    exact ⟨hinv, hres⟩
  · rw [hm] at hinv hres
    obtain ⟨b', hb', hlive⟩ := hres.resolve_left fun hnone => nomatch hnone.1
    cases hb'
    have hsame : s'.setRequested b (n * m) = s' := by
      have hnodup := hinv.blocks.live_nodup
      dsimp only at hlive hnodup
      rw [hlive, map_cons, nodup_cons] at hnodup
      have hmap : s'.live.map (fun l => if l.addr = b then ⟨b, n * m⟩ else l) = s'.live := by
        rw [hlive, map_cons, if_pos rfl]
        refine congrArg _ ((map_congr_left fun l hl => if_neg ?_).trans (map_id _))
        rintro rfl
        exact hnodup.1 (mem_map.2 ⟨l, hl, rfl⟩)
      unfold setRequested
      rw [hmap]
    dsimp only
    rw [hsame]
    exact ⟨hinv, .inr ⟨b, rfl, hlive⟩⟩

theorem pallocFree_spec (hpages : Pages s.arenas s.pages) (hp : s.arenas p = some a)
    (hblocks : Blocks (update s.arenas p none) s.freeList s.live none) (hfailed : s.failed = false) :
    HeapInv (s.pallocFreeMultiple p a.pageCnt) := by
  have hassert : ∀ i < a.pageCnt, p + i ∈ s.pages := fun i hi => hpages.mem_of_arena hp hi
  rw [← hpages.erase_eq hp] at hblocks
  unfold pallocFreeMultiple
  rw [assert_of hassert]
  exact ⟨hpages.remove hp, hblocks, hfailed⟩

theorem blockToArena_of_live (h : HeapInv s) (hb : b ∈ s.live.map (·.addr)) : ∃ a, s.blockToArena b = some a ∧
    s.arenas (b / pgsize) = some a := by
  obtain ⟨l, hl, rfl⟩ := mem_map.1 hb
  rcases h.blocks.live_block l hl with ⟨d, hblock, -⟩ | ⟨cnt, hcnt, hmod, -⟩
  · obtain ⟨n, hn⟩ := hblock.arena
    exact ⟨_, blockToArena_of_block h.pages hblock hn, hn⟩
  · exact ⟨_, blockToArena_of_big h.pages hcnt hmod, hcnt⟩

theorem free_spec (h : HeapInv s) (hb : b ∈ s.live.map (·.addr)) : HeapInv (s.free (some b)) := by
  obtain ⟨⟨_ | d, n⟩, harena, hp⟩ := blockToArena_of_live h hb
  · unfold Malloc.Heap.free
    dsimp only
    rw [harena]
    exact pallocFree_spec (s := s.take b) h.pages hp (h.blocks.removeBig hb hp) h.asserts
  · have hblocks := h.blocks.push hb hp
    have hpages : Pages (update s.arenas (b / pgsize) (some ⟨some d, n + 1⟩)) s.pages := h.pages.set hp rfl
    have hlt := h.blocks.cnt_lt hp nofun
    have hfacts := d.facts
    have hmod : (n + 1) % 2 ^ 32 = n + 1 := Nat.mod_eq_of_lt (by omega)
    unfold Malloc.Heap.free
    dsimp only
    rw [harena]
    dsimp only
    rw [hmod]
    split_ifs with hge
    · -- the arena is free
      have hcnt : n + 1 = d.blocksPerArena := by omega
      have hself : (((s.take b).setFree d (b :: s.freeList d)).setArena (b / pgsize) ⟨some d, n + 1⟩).arenas (b / pgsize) =
          some ⟨some d, n + 1⟩ := update_self ..
      have hloop := removeLoop_eq (s := ((s.take b).setFree d (b :: s.freeList d)).setArena (b / pgsize) ⟨some d, n + 1⟩)
        hself (hblocks.free_nodup d) (fun i hi => hblocks.all_free hself hge hi) le_rfl
      rw [assert_of hcnt, hloop, diff_eq_filter hblocks]
      exact pallocFree_spec (a := ⟨some d, n + 1⟩) (s := (((s.take b).setFree d (b :: s.freeList d)).setArena (b / pgsize)
        ⟨some d, n + 1⟩).setFree d _) hpages hself (hblocks.removeArena hself hge) h.asserts
    · refine ⟨hpages, ⟨hblocks.free_nodup, hblocks.free_block, hblocks.cnt, fun {q d' m} hq _ => ?_, hblocks.live_nodup,
        hblocks.live_block, hblocks.covered, hblocks.big⟩, h.asserts⟩
      rcases set_cases hq with ⟨-, ha⟩ | ⟨e, -⟩
      · obtain ⟨rfl, rfl⟩ := arena_inj (congrArg some ha)
        exact Nat.lt_of_not_le hge
      · exact hblocks.cnt_lt hq fun e' => e (Option.some.inj e').symm

theorem removeLoop_frame (p : ℕ) (d : DescPtr) : ∀ (is : List ℕ) (s : Heap),
    (is.foldl (removeBlock p d) s).live = s.live ∧ (is.foldl (removeBlock p d) s).arenas = s.arenas
  | [], _ => ⟨rfl, rfl⟩
  | _ :: is, _ => removeLoop_frame p d is _

theorem free_live (h : HeapInv s) (hb : b ∈ s.live.map (·.addr)) :
    (s.free (some b)).live = s.live.filter fun l => l.addr ≠ b := by
  obtain ⟨⟨_ | d, n⟩, harena, -⟩ := blockToArena_of_live h hb
  · unfold Heap.free
    dsimp only
    rw [harena]
    rfl
  · unfold Heap.free
    dsimp only
    rw [harena]
    dsimp only
    split_ifs
    · exact (removeLoop_frame ..).1
    · rfl

/-- An arena that is left when a block is freed has its descriptor, and its size if it is one block. -/
theorem free_arenas {q : ℕ} {a' : Arena} (h : HeapInv s) (hb : b ∈ s.live.map (·.addr))
    (hq : (s.free (some b)).arenas q = some a') :
    ∃ a, s.arenas q = some a ∧ a'.desc = a.desc ∧ (a.desc = none → a' = a) := by
  obtain ⟨⟨_ | d, n⟩, harena, hp⟩ := blockToArena_of_live h hb
  · unfold Heap.free at hq
    dsimp only at hq
    rw [harena] at hq
    unfold pallocFreeMultiple at hq
    dsimp only at hq
    split_ifs at hq
    exact ⟨a', hq, rfl, fun _ => rfl⟩
  · have hset : ∀ {m}, update s.arenas (b / pgsize) (some ⟨some d, m⟩) q = some a' →
        ∃ a, s.arenas q = some a ∧ a'.desc = a.desc ∧ (a.desc = none → a' = a) := by
      intro m hm
      rw [update_apply] at hm
      split_ifs at hm with e
      · cases hm
        exact ⟨⟨some d, n⟩, e ▸ hp, rfl, nofun⟩
      · exact ⟨a', hm, rfl, fun _ => rfl⟩
    unfold Heap.free at hq
    dsimp only at hq
    rw [harena] at hq
    dsimp only at hq
    split_ifs at hq
    · unfold pallocFreeMultiple at hq
      dsimp only at hq
      split_ifs at hq
      rw [(removeLoop_frame ..).2] at hq
      exact hset hq
    · exact hset hq

theorem realloc_spec {oldBlock : Option ℕ} (h : HeapInv s) (hsize : size < 2 ^ 31)
    (hold : ∀ b ∈ oldBlock, b ∈ s.live.map (·.addr)) (answer : Option ℕ) :
    HeapInv (s.realloc oldBlock size answer).2 ∧
    (s.realloc oldBlock size answer).2.live = movedBlock s.live oldBlock size (s.realloc oldBlock size answer).1 := by
  unfold realloc
  split_ifs with h0
  · unfold movedBlock
    dsimp only
    rw [if_pos h0]
    cases oldBlock with
    | none => exact ⟨h, rfl⟩
    | some b => exact ⟨free_spec h (hold b rfl), free_live h (hold b rfl)⟩
  obtain ⟨hinv, hres⟩ := malloc_spec h hsize answer
  rcases hm : s.malloc size answer with ⟨_ | newBlock, s'⟩
  · rw [hm] at hinv hres
    exact ⟨hinv, (hres.resolve_right fun ⟨_, hsome, _⟩ => nomatch hsome).2.trans (if_neg h0).symm⟩
  rw [hm] at hinv hres
  obtain ⟨b', hb', hlive⟩ := hres.resolve_left fun hnone => nomatch hnone.1
  cases hb'
  cases oldBlock with
  | none => exact ⟨hinv, hlive⟩
  | some b =>
    have hb : b ∈ s'.live.map (·.addr) := by
      rw [show s'.live = _ from hlive]
      exact mem_cons_of_mem _ (hold b rfl)
    obtain ⟨a, ha, -⟩ := blockToArena_of_live hinv hb
    dsimp only
    rw [assert_of (by rw [ha]; rfl)]
    refine ⟨free_spec hinv hb, (free_live hinv hb).trans ?_⟩
    -- the new block is not the old one
    have hne : newBlock ≠ b := by
      rintro rfl
      have hnodup := hinv.blocks.live_nodup
      dsimp only at hlive hnodup
      rw [hlive, map_cons, nodup_cons] at hnodup
      exact hnodup.1 (hold _ rfl)
    rw [show s'.live = _ from hlive, filter_cons, if_pos (decide_eq_true hne)]
    rfl

theorem heapInv_init : HeapInv Heap.init where
  pages := ⟨nofun, nofun, nofun, nodup_nil, fun _ => ⟨nofun, fun ⟨_, _, h, _⟩ => nomatch h⟩⟩
  blocks := ⟨fun _ => nodup_nil, nofun, nofun, nofun, nodup_nil, nofun, nofun, nofun⟩
  asserts := rfl

theorem Returned.spec {r : Option ℕ × Heap} (h : Returned s size r) : HeapInv r.2 ∧ r.2.live = withBlock s.live size r.1 := by
  obtain ⟨hinv, ⟨hr, hlive⟩ | ⟨b, hr, hlive⟩⟩ := h <;> rw [hr] <;> exact ⟨hinv, hlive⟩

theorem step_spec {c : Call} (h : HeapInv s) (hok : s.CallOk c) (hstep : s.step c = some s') :
    HeapInv s' ∧ s'.live = s.liveAfter c := by
  cases c with
  | malloc size answer =>
    cases hstep
    exact (malloc_spec h hok answer).spec
  | calloc n m answer =>
    cases hstep
    exact (calloc_spec h hok answer).spec
  | realloc oldBlock newSize answer =>
    cases hstep
    exact realloc_spec h hok.1 hok.2 answer
  | free b =>
    cases hstep
    cases b with
    | none => exact ⟨h, rfl⟩
    | some b => exact ⟨free_spec h (hok b rfl), free_live h (hok b rfl)⟩

/-! ## What follows -/

/-- A byte range behind the header of an arena and inside its pages. -/
def Inside (arenas : ℕ → Option Arena) (b size : ℕ) : Prop :=
  ∃ a, arenas (b / pgsize) = some a ∧ b / pgsize * pgsize + arenaSize ≤ b ∧ b + size ≤ (b / pgsize + a.pageCnt) * pgsize

theorem IsBlock.inside (h : IsBlock s.arenas d b) : Inside s.arenas b d.blockSize := by
  obtain ⟨n, i, hn, hi, heq⟩ := h
  have hend := block_end (b / pgsize) hi
  rw [← heq] at hend
  refine ⟨_, hn, ?_, ?_⟩
  · rw [heq, block_div _ hi]
    unfold arenaToBlock
    omega
  · change _ ≤ (b / pgsize + 1) * pgsize
    rwa [Nat.add_mul, Nat.one_mul]

theorem Inside.apart {b' m : ℕ} (h : Pages s.arenas s.pages) (hb : Inside s.arenas b n) (hb' : Inside s.arenas b' m)
    (hne : b / pgsize ≠ b' / pgsize) : Apart b n b' m := by
  obtain ⟨a, ha, hle, hend⟩ := hb
  obtain ⟨a', ha', hle', hend'⟩ := hb'
  rcases Nat.lt_or_gt_of_ne hne with hlt | hlt
  · have := Nat.mul_le_mul_right pgsize (h.apart ha ha' hlt)
    exact .inl (by omega)
  · have := Nat.mul_le_mul_right pgsize (h.apart ha' ha hlt)
    exact .inr (by omega)

theorem Inside.header_apart (h : Pages s.arenas s.pages) (hb : Inside s.arenas b n) (hp : s.arenas p = some a) :
    Apart b n (p * pgsize) arenaSize := by
  obtain ⟨a', ha', hle, hend⟩ := hb
  have hpos := h.pos hp
  rcases lt_trichotomy (b / pgsize) p with hlt | rfl | hlt
  · have := Nat.mul_le_mul_right pgsize (h.apart ha' hp hlt)
    exact .inl (by omega)
  · exact .inr hle
  · have hmul := Nat.mul_le_mul_right pgsize (Nat.succ_le_of_lt hlt)
    have hsize : arenaSize ≤ pgsize := by decide
    rw [Nat.succ_eq_add_one, Nat.add_mul, Nat.one_mul] at hmul
    exact .inr (by omega)

theorem blockSize_of_block (hb : IsBlock s.arenas d b) : s.blockSize b = d.blockSize := by
  obtain ⟨n, hn⟩ := hb.arena
  unfold Heap.blockSize
  rw [hn]

theorem blockSize_of_big (hp : s.arenas (b / pgsize) = some ⟨none, n⟩) (hmod : b % pgsize = arenaSize) :
    s.blockSize b = pgsize * n - arenaSize := by
  unfold Heap.blockSize
  rw [hp]
  dsimp only
  rw [hmod]

variable {l : Live}

theorem HeapInv.live_inside (h : HeapInv s) (hl : l ∈ s.live) :
    l.requested ≤ s.blockSize l.addr ∧ Inside s.arenas l.addr (s.blockSize l.addr) ∧ 0 < s.blockSize l.addr := by
  rcases h.blocks.live_block l hl with ⟨d, hblock, -, hreq⟩ | ⟨cnt, hcnt, hmod, hreq⟩
  · rw [blockSize_of_block hblock]
    exact ⟨hreq, hblock.inside, d.blockSize_pos⟩
  · have hpos : 0 < cnt := h.pages.pos hcnt
    have hdiv := Nat.div_add_mod l.addr pgsize
    rw [blockSize_of_big hcnt hmod]
    rw [hmod] at hdiv
    refine ⟨by rw [Nat.mul_comm]; omega, ⟨_, hcnt, by rw [Nat.mul_comm]; omega, ?_⟩, ?_⟩
    · change _ ≤ (l.addr / pgsize + cnt) * pgsize
      rw [Nat.add_mul, Nat.mul_comm (l.addr / pgsize), Nat.mul_comm cnt]
      have : arenaSize ≤ pgsize * cnt := by
        unfold arenaSize pgsize
        omega
      omega
    · unfold arenaSize pgsize
      omega

theorem HeapInv.live_apart_block (h : HeapInv s) (hl : l ∈ s.live) (hx : IsBlock s.arenas d x) (hne : l.addr ≠ x) :
    Apart l.addr (s.blockSize l.addr) x d.blockSize := by
  by_cases hpage : l.addr / pgsize = x / pgsize
  · obtain ⟨m, j, hm, hj, hxj⟩ := hx
    have hlive : l.addr ∈ s.live.map (·.addr) := mem_map.2 ⟨l, hl, rfl⟩
    obtain ⟨hblock, -⟩ := h.blocks.live_not_free hlive (hpage ▸ hm)
    rw [blockSize_of_block hblock]
    obtain ⟨n, i, hn, hi, hli⟩ := hblock
    rw [hpage] at hli
    generalize x / pgsize = page at hli hxj
    rw [hli, hxj]
    refine block_apart _ fun hij => hne ?_
    rw [hli, hxj, hij]
  · exact Inside.apart h.pages (h.live_inside hl).2.1 hx.inside hpage

theorem HeapInv.live_apart (h : HeapInv s) {l' : Live} (hl : l ∈ s.live) (hl' : l' ∈ s.live) (hne : l.addr ≠ l'.addr) :
    Apart l.addr (s.blockSize l.addr) l'.addr (s.blockSize l'.addr) := by
  rcases h.blocks.live_block l' hl' with ⟨d, hblock, -⟩ | ⟨cnt, hcnt, hmod, -⟩
  · rw [blockSize_of_block hblock]
    exact h.live_apart_block hl hblock hne
  · refine Inside.apart h.pages (h.live_inside hl).2.1 (h.live_inside hl').2.1 fun hpage => hne ?_
    rw [← hpage] at hcnt
    rcases h.blocks.live_block l hl with ⟨d, hblock, -⟩ | ⟨_, -, hmod', -⟩
    · obtain ⟨n, hn⟩ := hblock.arena
      rw [hcnt] at hn
      cases hn
    · rw [← Nat.div_add_mod l.addr pgsize, ← Nat.div_add_mod l'.addr pgsize, hpage, hmod, hmod']

theorem HeapInv.pages_iff (h : HeapInv s) (q : ℕ) : q ∈ s.pages ↔
    ∃ l ∈ s.live, l.addr / pgsize ≤ q ∧ q * pgsize < l.addr + s.blockSize l.addr := by
  rw [h.pages.mem_iff]
  constructor
  · rintro ⟨p, ⟨_ | d, n⟩, hp, hle, hlt⟩
    · obtain ⟨l, hl, haddr⟩ := mem_map.1 (h.blocks.big hp)
      have hdiv : l.addr / pgsize = p ∧ l.addr % pgsize = arenaSize := by
        rw [haddr]
        unfold pgsize arenaSize
        omega
      refine ⟨l, hl, hdiv.1 ▸ hle, ?_⟩
      rw [blockSize_of_big (hdiv.1.symm ▸ hp) hdiv.2, haddr]
      have hq := Nat.mul_le_mul_right pgsize (Nat.succ_le_of_lt hlt)
      change (q + 1) * pgsize ≤ (p + n) * pgsize at hq
      rw [Nat.add_mul, Nat.add_mul, Nat.mul_comm n] at hq
      have hpos : 0 < n := h.pages.pos hp
      unfold arenaSize pgsize at *
      omega
    · obtain ⟨i, hi, hmem⟩ := h.blocks.exists_live hp (h.blocks.cnt_lt hp nofun)
      obtain ⟨l, hl, haddr⟩ := mem_map.1 hmem
      have hdiv : l.addr / pgsize = p := by
        rw [haddr]
        exact block_div p hi
      obtain ⟨-, ⟨_, -, hfirst, -⟩, -⟩ := h.live_inside hl
      change q < p + 1 at hlt
      have hqp : q = p := by omega
      subst hqp
      refine ⟨l, hl, hdiv.le, ?_⟩
      rw [hdiv] at hfirst
      unfold arenaSize at hfirst
      omega
  · rintro ⟨l, hl, hle, hlt⟩
    obtain ⟨-, ⟨a, ha, -, hend⟩, -⟩ := h.live_inside hl
    exact ⟨_, a, ha, hle, Nat.lt_of_mul_lt_mul_right (hlt.trans_le hend)⟩

theorem HeapInv.ok (h : HeapInv s) : HeapOk s where
  live_apart := by
    have hnodup := h.blocks.live_nodup
    rw [List.Nodup, pairwise_map] at hnodup
    exact hnodup.imp_of_mem fun hl hl' hne => h.live_apart hl hl' hne
  live_large l hl := (h.live_inside hl).1
  header_apart l hl p hp := by
    obtain ⟨a, ha⟩ := Option.isSome_iff_exists.1 hp
    exact Inside.header_apart h.pages (h.live_inside hl).2.1 ha
  free_apart l hl d x hx := by
    refine h.live_apart_block hl (h.blocks.free_block hx) ?_
    rintro rfl
    obtain ⟨n, hn⟩ := (h.blocks.free_block hx).arena
    exact (h.blocks.live_not_free (mem_map.2 ⟨l, hl, rfl⟩) hn).2 hx
  free_nodup := h.blocks.free_nodup
  free_class d x hx := by
    obtain ⟨n, i, hn, hi, heq⟩ := h.blocks.free_block hx
    exact ⟨_, n, i, hn, hi, heq⟩
  free_cnt p d n hp := ⟨h.blocks.cnt hp, h.blocks.cnt_lt hp nofun⟩
  pages_nodup := h.pages.nodup
  pages_iff := h.pages_iff
  asserts := h.asserts

theorem reaches_heapInv (h : Reaches step CallOk .init s) : HeapInv s :=
  h.invariant heapInv_init fun _ _ _ ih hok hstep => (step_spec ih hok hstep).1

theorem free_blockSize (h : HeapInv s) (hb : b ∈ s.live.map (·.addr)) (hl : l ∈ s.live) (hne : l.addr ≠ b) :
    (s.free (some b)).blockSize l.addr = s.blockSize l.addr := by
  have hl' : l ∈ (s.free (some b)).live := by
    rw [free_live h hb, mem_filter]
    exact ⟨hl, decide_eq_true hne⟩
  obtain ⟨-, ⟨a', ha', -⟩, -⟩ := (free_spec h hb).live_inside hl'
  obtain ⟨⟨desc, n⟩, ha, hdesc, hbig⟩ := free_arenas h hb ha'
  unfold Heap.blockSize
  rw [ha, ha']
  cases desc with
  | none => rw [hbig rfl]
  | some d =>
    dsimp only at hdesc ⊢
    rw [hdesc]

/-- The pages that are left when a block is freed are those of the other blocks in use. -/
theorem free_pages (h : HeapInv s) (hb : b ∈ s.live.map (·.addr)) (q : ℕ) : q ∈ (s.free (some b)).pages ↔
    ∃ l ∈ s.live, l.addr ≠ b ∧ l.addr / pgsize ≤ q ∧ q * pgsize < l.addr + s.blockSize l.addr := by
  rw [(free_spec h hb).pages_iff, free_live h hb]
  simp only [mem_filter, decide_eq_true_eq]
  constructor
  · rintro ⟨l, ⟨hl, hne⟩, hle, hlt⟩
    exact ⟨l, hl, hne, hle, free_blockSize h hb hl hne ▸ hlt⟩
  · rintro ⟨l, hl, hne, hle, hlt⟩
    exact ⟨l, ⟨hl, hne⟩, hle, (free_blockSize h hb hl hne).symm ▸ hlt⟩

/-- **Memory blocks.**  In every sequence of calls with sizes below `2 ^ 31` that frees only blocks
    in use, whatever the page allocator answers, the blocks in use are apart from each other, from
    the headers and from the free blocks, and the arenas count their free blocks.  A block is in use from the call that
    returned it to the one that frees it, and a page is given back when its last block is freed. -/
theorem heap_ok {s : Heap} (h : Reaches step CallOk .init s) :
    HeapOk s ∧ (∀ c, s.CallOk c → ∀ s', s.step c = some s' → s'.live = s.liveAfter c) ∧
    ∀ b ∈ s.live.map (·.addr), ∀ q, q ∈ (s.free (some b)).pages ↔
      ∃ l ∈ s.live, l.addr ≠ b ∧ l.addr / pgsize ≤ q ∧ q * pgsize < l.addr + s.blockSize l.addr := by
  have hinv := reaches_heapInv h
  exact ⟨hinv.ok, fun _ hok _ hstep => (step_spec hinv hok hstep).2, fun _ hb => free_pages hinv hb⟩

/-- Two blocks of one arena and one that has its own; the first is moved to another size class, so that the page of the
    arena is given back when the second is freed. -/
theorem heap_ok_moved : ∃ s, Reaches step CallOk .init s ∧ HeapOk s ∧ 1 ∈ s.pages ∧ 1 ∉ (s.free (some (4096 + 12 + 1024))).pages ∧
    (s.free (some (4096 + 12 + 1024))).live.map (·.addr) = [4 * 4096 + 12, 2 * 4096 + 12] := by
  obtain ⟨s, hs, hp⟩ := reaches_of_run step CallOk .init
    [.malloc 600 (some 1), .calloc 3 300 none, .malloc 5000 (some 2), .malloc 7 none, .realloc (some (4096 + 12)) 100 (some 4),
      .free none]
    (fun s => s.live.map (·.addr) = [4 * 4096 + 12, 2 * 4096 + 12, 4096 + 12 + 1024] ∧ 1 ∈ s.pages) (by decide +kernel)
  obtain ⟨hlive, hpage⟩ := of_decide_eq_true hp
  have hb : 4096 + 12 + 1024 ∈ s.live.map (·.addr) := by rw [hlive]; decide
  obtain ⟨hok, hcalls, hpages⟩ := heap_ok hs
  refine ⟨s, hs, hok, hpage, fun hmem => ?_, ?_⟩
  · obtain ⟨l, hl, hne, hle, -⟩ := (hpages _ hb 1).1 hmem
    have hl : l.addr ∈ s.live.map (·.addr) := mem_map_of_mem hl
    rw [hlive] at hl
    simp only [mem_cons, not_mem_nil, or_false] at hl
    unfold pgsize at hle
    omega
  · rw [hcalls (.free (some (4096 + 12 + 1024))) (fun b e => Option.some.inj e ▸ hb) _ rfl]
    refine (filter_map (f := Live.addr) (p := fun a => decide (a ≠ 4096 + 12 + 1024))).symm.trans ?_
    rw [hlive]
    rfl

end Pintos.Malloc
