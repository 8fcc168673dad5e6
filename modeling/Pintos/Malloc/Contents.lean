/-
  What blocks hold (threads/malloc.c).

  Beside the state of the allocator, memory has a byte for every address.  The allocator keeps headers and
  the links of its lists in it; which bytes these are is left open (`junk`), but not where they are (`Own`).
-/
import Pintos.Malloc.Calls

namespace Pintos.Malloc

open Lib Function List

deriving instance DecidableEq for Live

namespace Heap

/-- Where the allocator has its own data: headers of arenas, and the list elements of free blocks. -/
def Own (s : Heap) (x : ℕ) : Prop :=
  (s.arenas (x / pgsize)).isSome ∧ x % pgsize < arenaSize ∨ ∃ d, ∃ b ∈ s.freeList d, b ≤ x ∧ x < b + 8

instance (s : Heap) (x : ℕ) : Decidable (s.Own x) := inferInstanceAs (Decidable (_ ∨ _))

/-- The bytes after `malloc`; those of a new block are not known. -/
def mallocBytes (s : Heap) (size : ℕ) (answer : Option ℕ) (junk m : ℕ → UInt8) : ℕ → UInt8 := fun x =>
  let r := s.malloc size answer
  if s.Own x ∨ r.2.Own x ∨ ∃ b ∈ r.1, b ≤ x ∧ x < b + r.2.blockSize b then junk x else m x

/-- `memset (p, 0, size)` after `malloc (size)`. -/
def callocBytes (s : Heap) (a b : ℕ) (answer : Option ℕ) (junk m : ℕ → UInt8) : ℕ → UInt8 :=
  let size := a * b % 2 ^ 32
  if size < a ∨ size < b then m
  else fun x => if ∃ p ∈ (s.malloc size answer).1, p ≤ x ∧ x < p + size then 0 else s.mallocBytes size answer junk m x

/-- The bytes after `free`: the block is cleared, and the pages that are given back. -/
def freeBytes (s : Heap) (b : ℕ) (junk m : ℕ → UInt8) : ℕ → UInt8 := fun x =>
  let s' := s.free (some b)
  if s.Own x ∨ s'.Own x then junk x
  else if b ≤ x ∧ x < b + s.blockSize b ∨ x / pgsize ∈ s.pages ∧ x / pgsize ∉ s'.pages then 0xcc
  else m x

/-- `memcpy`. -/
def copyBytes (dst src n : ℕ) (m : ℕ → UInt8) : ℕ → UInt8 := fun x =>
  if dst ≤ x ∧ x < dst + n then m (src + (x - dst)) else m x

/-- The bytes after `realloc` of a block, for a size that is not 0. -/
def reallocBytes (s : Heap) (oldBlock newSize : ℕ) (answer : Option ℕ) (junk junk' m : ℕ → UInt8) : ℕ → UInt8 :=
  let m := s.mallocBytes newSize answer junk m
  match s.malloc newSize answer with
  | (none, _) => m
  | (some newBlock, s) =>
    let oldSize := s.blockSize oldBlock
    let minSize := if newSize < oldSize then newSize else oldSize
    s.freeBytes oldBlock junk' (copyBytes newBlock oldBlock minSize m)

end Heap

open Heap

variable {s : Heap} {l : Live} {size b i a : ℕ} {answer : Option ℕ} {junk m : ℕ → UInt8}

/-! ## Bytes that stay -/

theorem HeapOk.not_own (h : HeapOk s) (hl : l ∈ s.live) (hi : i < l.requested) : ¬ s.Own (l.addr + i) := by
  have hlarge := h.live_large l hl
  rintro (⟨hp, hlt⟩ | ⟨d, x, hx, hle, hlt⟩)
  · have := h.header_apart l hl _ hp
    unfold Apart pgsize at *
    omega
  · have := h.free_apart l hl d x hx
    have := d.facts
    unfold Apart at *
    omega

theorem HeapOk.page_mem (h : HeapOk s) (hl : l ∈ s.live) (hi : i < l.requested) : (l.addr + i) / pgsize ∈ s.pages := by
  have hlarge := h.live_large l hl
  refine (h.pages_iff _).2 ⟨l, hl, Nat.div_le_div_right (Nat.le_add_right ..), ?_⟩
  have := Nat.div_mul_le_self (l.addr + i) pgsize
  omega

theorem malloc_keeps (h : HeapInv s) (hsize : size < 2 ^ 31) (hl : l ∈ s.live) (hi : i < l.requested) :
    s.mallocBytes size answer junk m (l.addr + i) = m (l.addr + i) := by
  obtain ⟨h', hres⟩ := malloc_spec h hsize answer
  have hl' : l ∈ (s.malloc size answer).2.live := by
    rcases hres with ⟨-, e⟩ | ⟨_, -, e⟩ <;> rw [e]
    · exact hl
    · exact mem_cons_of_mem _ hl
  refine if_neg ?_
  rintro (hown | hown | ⟨b, hb, hle, hlt⟩)
  · exact h.ok.not_own hl hi hown
  · exact h'.ok.not_own hl' hi hown
  · -- a new block is apart from those in use
    obtain ⟨_, hsome, e⟩ := hres.resolve_left fun hno => nomatch hb.symm.trans hno.1
    cases hb.symm.trans hsome
    have hpair := h'.ok.live_apart
    have hlarge := h'.ok.live_large l hl'
    rw [e, pairwise_cons] at hpair
    have := hpair.1 l hl
    unfold Apart at this
    dsimp only at this
    omega

theorem free_keeps (h : HeapInv s) (hb : b ∈ s.live.map (·.addr)) (hl : l ∈ s.live) (hne : l.addr ≠ b) (hi : i < l.requested) :
    s.freeBytes b junk m (l.addr + i) = m (l.addr + i) := by
  have h' := free_spec h hb
  have hl' : l ∈ (s.free (some b)).live := by
    rw [free_live h hb, mem_filter]
    exact ⟨hl, decide_eq_true hne⟩
  unfold freeBytes
  rw [if_neg fun hown => hown.elim (h.ok.not_own hl hi) (h'.ok.not_own hl' hi), if_neg]
  rintro (⟨hle, hlt⟩ | ⟨-, hpage⟩)
  · obtain ⟨k, hk, rfl⟩ := mem_map.1 hb
    have := h.live_apart hl hk hne
    have := h.ok.live_large l hl
    unfold Apart at *
    omega
  · exact hpage (h'.ok.page_mem hl' hi)

/-- **What `realloc` does to the contents of blocks.**  A block that is moved keeps its first bytes and is freed; a
    block that cannot be moved stays as it is, and so does every other block. -/
theorem realloc_contents (h : Reaches step CallOk .init s) (hl : l ∈ s.live) {n : ℕ} (hn : 0 < n) (hn' : n < 2 ^ 31)
    (answer : Option ℕ) (junk junk' m : ℕ → UInt8) :
    (∀ p, (s.realloc (some l.addr) n answer).1 = some p →
      n ≤ (s.realloc (some l.addr) n answer).2.blockSize p ∧
      (∀ i < min l.requested n, s.reallocBytes l.addr n answer junk junk' m (p + i) = m (l.addr + i)) ∧
      (s.realloc (some l.addr) n answer).2.live = ⟨p, n⟩ :: s.live.filter fun l' => l'.addr ≠ l.addr) ∧
    ((s.realloc (some l.addr) n answer).1 = none → (s.realloc (some l.addr) n answer).2.live = s.live ∧
      ∀ i < l.requested, s.reallocBytes l.addr n answer junk junk' m (l.addr + i) = m (l.addr + i)) ∧
    HeapOk (s.realloc (some l.addr) n answer).2 ∧
    ∀ l' ∈ s.live, l'.addr ≠ l.addr → ∀ i < l'.requested,
      s.reallocBytes l.addr n answer junk junk' m (l'.addr + i) = m (l'.addr + i) := by
  have hinv := reaches_heapInv h
  have hkeep : ∀ l' ∈ s.live, ∀ i < l'.requested, s.mallocBytes n answer junk m (l'.addr + i) = m (l'.addr + i) :=
    fun l' hl' i hi => malloc_keeps hinv hn' hl' hi
  obtain ⟨hinv', hres⟩ := malloc_spec hinv hn' answer
  unfold Heap.realloc reallocBytes
  rw [if_neg hn.ne']
  rcases hmalloc : s.malloc n answer with ⟨_ | p, s'⟩ <;> rw [hmalloc] at hinv' hres <;> dsimp only at *
  · rcases hres with ⟨-, hlive⟩ | ⟨_, hsome, -⟩
    · exact ⟨nofun, fun _ => ⟨hlive, hkeep l hl⟩, hinv'.ok, fun l' hl' _ => hkeep l' hl'⟩
    · cases hsome
  · obtain ⟨_, hsome, hlive⟩ := hres.resolve_left fun hno => nomatch hno.1
    obtain rfl := Option.some.inj hsome
    have hnew : (⟨p, n⟩ : Live) ∈ s'.live := hlive ▸ mem_cons_self
    have hold : ∀ l' ∈ s.live, l' ∈ s'.live ∧ l'.addr ≠ p := fun l' hl' => by
      have hnodup := hinv'.blocks.live_nodup
      rw [hlive, map_cons, nodup_cons] at hnodup
      exact ⟨hlive ▸ mem_cons_of_mem _ hl', fun e => hnodup.1 (mem_map.2 ⟨l', hl', e⟩)⟩
    have hmem : l.addr ∈ s'.live.map (·.addr) := mem_map.2 ⟨l, (hold l hl).1, rfl⟩
    have hpne : p ≠ l.addr := (hold l hl).2.symm
    obtain ⟨a, ha, -⟩ := blockToArena_of_live hinv' hmem
    rw [assert_of (by rw [ha]; rfl)]
    have hfree := free_spec hinv' hmem
    have hfreed := free_live hinv' hmem
    rw [hlive, filter_cons, if_pos (decide_eq_true hpne)] at hfreed
    have hlarge := hfree.ok.live_large ⟨p, n⟩ (hfreed ▸ mem_cons_self)
    refine ⟨fun q hq => ?_, nofun, hfree.ok, fun l' hl' hne i hi => ?_⟩
    · obtain rfl := Option.some.inj hq
      refine ⟨hlarge, fun i hi => ?_, hfreed⟩
      have hsize := hinv'.ok.live_large l (hold l hl).1
      rw [lt_min_iff] at hi
      rw [free_keeps hinv' hmem hnew hpne hi.2]
      unfold copyBytes
      rw [if_pos (by dsimp only; split_ifs <;> omega), Nat.add_sub_cancel_left]
      exact hkeep l hl i hi.1
    · obtain ⟨hl'', hnp⟩ := hold l' hl'
      rw [free_keeps hinv' hmem hl'' hne hi]
      unfold copyBytes
      rw [if_neg]
      · exact hkeep l' hl' i hi
      · have hapart : Apart l'.addr (s'.blockSize l'.addr) p (s'.blockSize p) := hinv'.live_apart hl'' hnew hnp
        have hlarge : n ≤ s'.blockSize p := hinv'.ok.live_large _ hnew
        have := hinv'.ok.live_large l' hl''
        unfold Apart at hapart
        split_ifs <;> omega

theorem realloc_contents_moved : ∃ p, ((Heap.init.malloc 100 (some 1)).2.realloc (some 4108) 5000 (some 2)).1 = some p ∧
    ∀ junk junk' m, ∀ i < 100,
      (Heap.init.malloc 100 (some 1)).2.reallocBytes 4108 5000 (some 2) junk junk' m (p + i) = m (4108 + i) := by
  have h : Reaches step CallOk .init (Heap.init.malloc 100 (some 1)).2 :=
    .single ⟨.malloc 100 (some 1), by decide, rfl⟩
  have hl : (⟨4108, 100⟩ : Live) ∈ (Heap.init.malloc 100 (some 1)).2.live := by decide +kernel
  have hsome : ((Heap.init.malloc 100 (some 1)).2.realloc (some 4108) 5000 (some 2)).1 = some 8204 := by decide +kernel
  exact ⟨8204, hsome, fun junk junk' m =>
    ((realloc_contents h hl (by decide) (by decide) (some 2) junk junk' m).1 8204 hsome).2.1⟩

/-! ## Sizes of 32 bits -/

theorem DescPtr.blockSize_le : ∀ d : DescPtr, d.blockSize ≤ 1024 := by decide

theorem findDesc_none (h : 1024 < size) : findDesc size = none := by
  refine find?_eq_none.2 fun d _ => ?_
  have := d.blockSize_le
  rw [decide_eq_true_eq]
  omega

theorem malloc_big (hd : findDesc size = none) (hres : (s.malloc size answer).1 = some b) :
    pageCnt size ≠ 0 ∧ (s.malloc size answer).2.blockSize b = pgsize * pageCnt size - arenaSize := by
  unfold Heap.malloc at hres ⊢
  split_ifs at hres ⊢ with h0
  rw [hd] at hres ⊢
  rcases pallocGet_cases s (pageCnt size) answer with heq | ⟨p, ⟨hcnt, -⟩, heq⟩ <;> rw [heq] at hres ⊢
  · cases hres
  · cases hres
    have hdiv : (p * pgsize + arenaSize) / pgsize = p ∧ (p * pgsize + arenaSize) % pgsize = arenaSize := by
      unfold pgsize arenaSize
      omega
    refine ⟨hcnt, blockSize_of_big ?_ hdiv.2⟩
    rw [hdiv.1]
    exact update_self ..

theorem malloc_large (h : HeapInv s) (hle : size ≤ 2 ^ 32 - 12) (hres : (s.malloc size answer).1 = some b) :
    size ≤ (s.malloc size answer).2.blockSize b := by
  by_cases hlt : size < 2 ^ 31
  · obtain ⟨h', hcases⟩ := malloc_spec h hlt answer
    obtain ⟨_, hsome, hlive⟩ := hcases.resolve_left fun hno => nomatch hres.symm.trans hno.1
    cases hres.symm.trans hsome
    exact h'.ok.live_large ⟨b, size⟩ (hlive ▸ mem_cons_self)
  · obtain ⟨hcnt, hsize⟩ := malloc_big (findDesc_none (by omega)) hres
    unfold pageCnt pgsize arenaSize at *
    omega

theorem newArena_block : ∀ d : DescPtr, ∃ b ∈ ((Heap.init.newArena d (some 1)).2.popBlock d 0).1,
    ((Heap.init.newArena d (some 1)).2.popBlock d 0).2.blockSize b ≤ 1024 := by
  decide +kernel

theorem popBlock_frame (s : Heap) (d : DescPtr) (size : ℕ) : (s.popBlock d size).1 = (s.popBlock d 0).1 ∧
    (s.popBlock d size).2.blockSize = (s.popBlock d 0).2.blockSize := by
  unfold popBlock
  split
  · exact ⟨rfl, rfl⟩
  · split <;> exact ⟨rfl, rfl⟩

theorem malloc_init_some (h0 : size ≠ 0) (hcnt : pageCnt size ≠ 0) : ∃ b, (Heap.init.malloc size (some 1)).1 = some b ∧
    (Heap.init.malloc size (some 1)).2.blockSize b ≤ max 1024 (pgsize * pageCnt size - arenaSize) := by
  cases hd : findDesc size with
  | none =>
    have havail : Heap.init.Available 1 (pageCnt size) := by
      refine ⟨hcnt, by decide, ?_, fun i _ => not_mem_nil⟩
      unfold pageCnt pgsize
      omega
    have hres : (Heap.init.malloc size (some 1)).1 = some (1 * pgsize + arenaSize) := by
      unfold Heap.malloc pallocGetMultiple
      rw [if_neg h0, hd]
      dsimp only
      rw [if_pos havail]
    exact ⟨_, hres, (malloc_big hd hres).2.le.trans (le_max_right ..)⟩
  | some d =>
    have heq : Heap.init.malloc size (some 1) = (Heap.init.newArena d (some 1)).2.popBlock d size := by
      unfold Heap.malloc
      rw [if_neg h0, hd]
      rfl
    obtain ⟨b, hb, hle⟩ := newArena_block d
    obtain ⟨hfst, hsnd⟩ := popBlock_frame (Heap.init.newArena d (some 1)).2 d size
    rw [heq, hfst, hsnd]
    exact ⟨b, hb, hle.trans (le_max_left ..)⟩

/-- What `calloc` is asked for fits, or it notices: the product is less than a factor, or so large that it asks for no page. -/
def CallocFits (a b : ℕ) : Prop :=
  a * b ≤ 2 ^ 32 - 12 ∨ a * b % 2 ^ 32 < a ∨ a * b % 2 ^ 32 < b ∨ 2 ^ 32 - 4107 ≤ a * b % 2 ^ 32 ∧ a * b % 2 ^ 32 ≤ 2 ^ 32 - 12

/-- **Sizes of 32 bits.**  A block is as large as it should be for a size of at most `2 ^ 32 - 12`, and one from `calloc` for
    products that fit or whose overflow is noticed; for others the first call may return a block that is too small. -/
theorem sizes_iff (size a b : ℕ) (hsize : size < 2 ^ 32) :
    ((∀ s answer p, Reaches step CallOk .init s → (s.malloc size answer).1 = some p →
      size ≤ (s.malloc size answer).2.blockSize p) ↔ size ≤ 2 ^ 32 - 12) ∧
    ((∀ s answer p junk m, Reaches step CallOk .init s → (s.calloc a b answer).1 = some p →
      a * b ≤ (s.calloc a b answer).2.blockSize p ∧ ∀ i < a * b, s.callocBytes a b answer junk m (p + i) = 0) ↔
        CallocFits a b) := by
  refine ⟨⟨fun hall => ?_, fun hle s answer p h hp => malloc_large (reaches_heapInv h) hle hp⟩, fun hall => ?_, ?_⟩
  · by_contra hgt
    have hcnt : pageCnt size = 1 := by
      unfold pageCnt pgsize arenaSize
      omega
    have h0 : size ≠ 0 := by omega
    obtain ⟨p, hp, hle⟩ := malloc_init_some h0 (by omega)
    have := hall _ _ p .refl hp
    unfold pgsize arenaSize at hle
    omega
  · by_contra hno
    unfold CallocFits at hno
    push Not at hno
    obtain ⟨hgt, ha, hb, hin⟩ := hno
    have hcnt : pageCnt (a * b % 2 ^ 32) ≠ 0 := by
      unfold pageCnt pgsize arenaSize
      omega
    have h0 : a * b % 2 ^ 32 ≠ 0 := fun e => by
      obtain rfl : a = 0 := by omega
      omega
    obtain ⟨p, hp, hle⟩ := malloc_init_some h0 hcnt
    have heq : Heap.init.calloc a b (some 1) = (some p, (Heap.init.malloc (a * b % 2 ^ 32) (some 1)).2.setRequested p (a * b)) := by
      unfold Heap.calloc
      rw [if_neg (by omega), ← Prod.mk.eta (p := Heap.init.malloc (a * b % 2 ^ 32) (some 1)), hp]
    have := (hall .init (some 1) p (fun _ => 0) (fun _ => 0) .refl (by rw [heq])).1
    rw [heq] at this
    change a * b ≤ (Heap.init.malloc (a * b % 2 ^ 32) (some 1)).2.blockSize p at this
    unfold pageCnt pgsize arenaSize at *
    omega
  · intro hfits s answer p junk m h hp
    unfold Heap.calloc callocBytes at *
    dsimp only at *
    split_ifs at * with hlt
    rcases hm : s.malloc (a * b % 2 ^ 32) answer with ⟨_ | q, s'⟩ <;> rw [hm] at hp
    · cases hp
    · cases hp
      have hres : (s.malloc (a * b % 2 ^ 32) answer).1 = some p := by rw [hm]
      have hmod : a * b % 2 ^ 32 = a * b := by
        rcases hfits with hle | hlt' | hlt' | ⟨hge, hle⟩
        · exact Nat.mod_eq_of_lt (by omega)
        · exact absurd (.inl hlt') hlt
        · exact absurd (.inr hlt') hlt
        · have := (malloc_big (findDesc_none (by omega)) hres).1
          unfold pageCnt pgsize arenaSize at this
          omega
      have hle : a * b ≤ 2 ^ 32 - 12 := by
        rcases hfits with hle | hlt' | hlt' | ⟨hge, hle⟩ <;> omega
      rw [hmod] at hm hres ⊢
      have hlarge := malloc_large (reaches_heapInv h) hle hres
      rw [hm] at hlarge
      refine ⟨hlarge, fun i hi => if_pos ⟨p, rfl, ?_⟩⟩
      omega

theorem sizes_iff_of_page : 4096 ≤ (Heap.init.malloc 4096 (some 1)).2.blockSize 4108 := by
  exact ((sizes_iff 4096 1 1 (by decide)).1.2 (by decide)) .init (some 1) 4108 .refl (by decide +kernel)

/-- A request for all but the last bytes of the address space gets one page; so do 65537 elements of 65537 bytes, a smaller block yet. -/
theorem sizes_too_small : (Heap.init.malloc (2 ^ 32 - 1) (some 1)).1 = some 4108 ∧
    (Heap.init.malloc (2 ^ 32 - 1) (some 1)).2.blockSize 4108 = 4084 ∧
    (Heap.init.calloc 65537 65537 (some 1)).1 = some 4108 ∧
    (Heap.init.calloc 65537 65537 (some 1)).2.blockSize 4108 = 135156 := by
  decide +kernel

end Pintos.Malloc
