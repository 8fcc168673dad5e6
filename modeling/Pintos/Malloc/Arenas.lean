/-
  Where the arenas and their blocks lie.

  `Pages` is about the pages of the arenas: they do not overlap, and are those that were obtained and not
  given back.  `Blocks` is about the blocks: each block of an arena is either free or in use, and the arena
  counts the free ones.
-/
import Pintos.Malloc.Heap

namespace Pintos.Malloc

open Lib Function List

variable {arenas : ℕ → Option Arena} {freeList : DescPtr → List ℕ} {live : List Live} {pages : List ℕ} {full : Option ℕ}
  {p q i j n b x cnt : ℕ} {d d' : DescPtr} {a a' : Arena}

/-! ## Geometry -/

theorem DescPtr.facts : ∀ d : DescPtr, 16 ≤ d.blockSize ∧ d.blocksPerArena * d.blockSize + arenaSize ≤ pgsize ∧
    1 < d.blocksPerArena ∧ d.blocksPerArena < 2 ^ 32 := by
  decide

theorem DescPtr.blockSize_pos (d : DescPtr) : 0 < d.blockSize := by
  have := d.facts
  omega

theorem block_end (p : ℕ) (hi : i < d.blocksPerArena) : arenaToBlock p d i + d.blockSize ≤ p * pgsize + pgsize := by
  have hmul : (i + 1) * d.blockSize ≤ d.blocksPerArena * d.blockSize := Nat.mul_le_mul_right _ hi
  have hfacts := d.facts
  rw [Nat.add_mul, Nat.one_mul] at hmul
  unfold arenaToBlock
  omega

theorem block_div (p : ℕ) (hi : i < d.blocksPerArena) : arenaToBlock p d i / pgsize = p := by
  have hend := block_end p hi
  have hpos := d.blockSize_pos
  have hge : p * pgsize ≤ arenaToBlock p d i := by
    unfold arenaToBlock
    omega
  unfold pgsize at *
  omega

theorem block_mod (p : ℕ) (hi : i < d.blocksPerArena) : arenaToBlock p d i % pgsize = arenaSize + i * d.blockSize := by
  have hdiv := block_div p hi
  have hmod := Nat.div_add_mod (arenaToBlock p d i) pgsize
  rw [hdiv] at hmod
  unfold arenaToBlock at hmod ⊢
  rw [Nat.mul_comm pgsize p] at hmod
  omega

theorem block_inj (h : arenaToBlock p d i = arenaToBlock p d j) : i = j := by
  unfold arenaToBlock at h
  exact Nat.eq_of_mul_eq_mul_right d.blockSize_pos (by omega)

theorem block_apart (p : ℕ) (hij : i ≠ j) : Apart (arenaToBlock p d i) d.blockSize (arenaToBlock p d j) d.blockSize := by
  unfold Apart arenaToBlock
  rcases Nat.lt_or_gt_of_ne hij with h | h
  · have hmul : (i + 1) * d.blockSize ≤ j * d.blockSize := Nat.mul_le_mul_right _ h
    rw [Nat.add_mul, Nat.one_mul] at hmul
    omega
  · have hmul : (j + 1) * d.blockSize ≤ i * d.blockSize := Nat.mul_le_mul_right _ h
    rw [Nat.add_mul, Nat.one_mul] at hmul
    omega

/-! ## Pages -/

/-- The number of pages of an arena. -/
def Arena.pageCnt (a : Arena) : ℕ :=
  match a.desc with
  | some _ => 1
  | none => a.freeCnt

structure Pages (arenas : ℕ → Option Arena) (pages : List ℕ) : Prop where
  page_ne : ∀ {p a}, arenas p = some a → p ≠ 0
  pos : ∀ {p a}, arenas p = some a → 0 < a.pageCnt
  apart : ∀ {p q a b}, arenas p = some a → arenas q = some b → p < q → p + a.pageCnt ≤ q
  nodup : pages.Nodup
  mem_iff : ∀ q, q ∈ pages ↔ ∃ p a, arenas p = some a ∧ p ≤ q ∧ q < p + a.pageCnt

theorem set_cases (hq : update arenas p (some a') q = some a) : q = p ∧ a = a' ∨ q ≠ p ∧ arenas q = some a := by
  by_cases e : q = p
  · rw [e, update_self] at hq
    exact .inl ⟨e, (Option.some.inj hq).symm⟩
  · rw [update_of_ne e] at hq
    exact .inr ⟨e, hq⟩

namespace Pages

section

variable (h : Pages arenas pages)
include h

theorem set (hp : arenas p = some a) (ha : a'.pageCnt = a.pageCnt) :
    Pages (update arenas p (some a')) pages := by
  have hup : ∀ {q b}, update arenas p (some a') q = some b → ∃ b', arenas q = some b' ∧ b'.pageCnt = b.pageCnt := by
    intro q b hq
    rcases set_cases hq with ⟨rfl, rfl⟩ | ⟨-, hq⟩
    · exact ⟨a, hp, ha.symm⟩
    · exact ⟨b, hq, rfl⟩
  refine ⟨fun hq => ?_, fun hq => ?_, fun hq hq' hlt => ?_, h.nodup, fun q => ?_⟩
  · obtain ⟨_, hq, -⟩ := hup hq
    exact h.page_ne hq
  · obtain ⟨_, hq, hb⟩ := hup hq
    exact hb ▸ h.pos hq
  · obtain ⟨_, hq, hb⟩ := hup hq
    obtain ⟨_, hq', -⟩ := hup hq'
    exact hb ▸ h.apart hq hq' hlt
  · rw [h.mem_iff]
    constructor
    · rintro ⟨r, b, hr, hle, hlt⟩
      by_cases e : r = p
      · subst e
        rw [hp] at hr
        exact ⟨r, a', update_self .., hle, by rwa [ha, Option.some.inj hr]⟩
      · exact ⟨r, b, by rw [update_of_ne e, hr], hle, hlt⟩
    · rintro ⟨r, b, hr, hle, hlt⟩
      obtain ⟨b', hr, hb⟩ := hup hr
      exact ⟨r, b', hr, hle, hb ▸ hlt⟩

theorem mem_of_arena (hp : arenas p = some a) (hi : i < a.pageCnt) : p + i ∈ pages :=
  (h.mem_iff _).2 ⟨p, a, hp, Nat.le_add_right .., Nat.add_lt_add_left hi p⟩

theorem add (hp : p ≠ 0) (hpos : 0 < a.pageCnt) (hnew : ∀ i < a.pageCnt, p + i ∉ pages) :
    Pages (update arenas p (some a)) ((List.range a.pageCnt).map (p + ·) ++ pages) := by
  have hnone : arenas p = none := by
    cases ha : arenas p with
    | none => rfl
    | some b => exact absurd (h.mem_of_arena ha (h.pos ha)) (hnew 0 hpos)
  have hnew' : ∀ {q}, q ∈ pages → p ≤ q → p + a.pageCnt ≤ q := by
    intro q hq hle
    by_contra hlt
    exact hnew (q - p) (by omega) (by rwa [Nat.add_sub_cancel' hle])
  have hmem : ∀ {q}, q ∈ (range a.pageCnt).map (p + ·) ++ pages ↔ (p ≤ q ∧ q < p + a.pageCnt) ∨ q ∈ pages := by
    intro q
    rw [mem_append, mem_map]
    refine or_congr_left ⟨?_, fun hq => ⟨q - p, mem_range.2 (by omega), Nat.add_sub_cancel' hq.1⟩⟩
    rintro ⟨i, hi, rfl⟩
    have := mem_range.1 hi
    omega
  refine ⟨fun {q b} hq => ?_, fun {q b} hq => ?_, fun {q r b c} hq hr hlt => ?_, ?_, fun q => ?_⟩
  · rcases set_cases hq with ⟨rfl, -⟩ | ⟨-, hq⟩
    · exact hp
    · exact h.page_ne hq
  · rcases set_cases hq with ⟨-, rfl⟩ | ⟨-, hq⟩
    · exact hpos
    · exact h.pos hq
  · rcases set_cases hq with ⟨rfl, rfl⟩ | ⟨-, hq'⟩
    · rcases set_cases hr with ⟨rfl, -⟩ | ⟨-, hr'⟩
      · exact absurd hlt (lt_irrefl _)
      · exact hnew' (h.mem_of_arena hr' (h.pos hr')) hlt.le
    · rcases set_cases hr with ⟨rfl, rfl⟩ | ⟨-, hr'⟩
      · by_contra hover
        exact hnew 0 hpos ((h.mem_iff _).2 ⟨q, b, hq', by omega, by omega⟩)
      · exact h.apart hq' hr' hlt
  · refine nodup_append.2 ⟨(nodup_range).map fun i j hij => Nat.add_left_cancel hij, h.nodup, fun x hx y hy => ?_⟩
    rintro rfl
    obtain ⟨i, hi, rfl⟩ := mem_map.1 hx
    exact hnew i (mem_range.1 hi) hy
  · rw [hmem, h.mem_iff]
    constructor
    · rintro (⟨hle, hlt⟩ | ⟨r, b, hr, hle, hlt⟩)
      · exact ⟨p, a, update_self .., hle, hlt⟩
      · refine ⟨r, b, ?_, hle, hlt⟩
        rw [update_of_ne, hr]
        rintro rfl
        rw [hnone] at hr
        cases hr
    · rintro ⟨r, b, hr, hle, hlt⟩
      rcases set_cases hr with ⟨rfl, rfl⟩ | ⟨-, hr⟩
      · exact .inl ⟨hle, hlt⟩
      · exact .inr ⟨r, b, hr, hle, hlt⟩

theorem remove (hp : arenas p = some a) :
    Pages (fun q => if p ≤ q ∧ q < p + a.pageCnt then none else arenas q)
      (pages.filter fun q => ¬ (p ≤ q ∧ q < p + a.pageCnt)) := by
  have hcases : ∀ {q b}, (if p ≤ q ∧ q < p + a.pageCnt then none else arenas q) = some b ↔ q ≠ p ∧ arenas q = some b := by
    intro q b
    have hpos := h.pos hp
    split_ifs with e
    · refine ⟨nofun, fun ⟨hne, hq⟩ => ?_⟩
      have := h.apart hp hq (lt_of_le_of_ne e.1 (Ne.symm hne))
      omega
    · refine ⟨fun hq => ⟨?_, hq⟩, fun hq => hq.2⟩
      rintro rfl
      exact e ⟨le_rfl, by omega⟩
  refine ⟨fun hq => h.page_ne (hcases.1 hq).2, fun hq => h.pos (hcases.1 hq).2,
    fun hq hr => h.apart (hcases.1 hq).2 (hcases.1 hr).2, h.nodup.filter _, fun q => ?_⟩
  rw [mem_filter, h.mem_iff, decide_eq_true_eq]
  constructor
  · rintro ⟨⟨r, b, hr, hle, hlt⟩, hnot⟩
    refine ⟨r, b, hcases.2 ⟨?_, hr⟩, hle, hlt⟩
    rintro rfl
    rw [hp] at hr
    exact hnot ⟨hle, Option.some.inj hr ▸ hlt⟩
  · rintro ⟨r, b, hr, hle, hlt⟩
    obtain ⟨hne, hr⟩ := hcases.1 hr
    refine ⟨⟨r, b, hr, hle, hlt⟩, fun hin => ?_⟩
    rcases Nat.lt_or_gt_of_ne hne with hrp | hpr
    · have := h.apart hr hp hrp
      omega
    · have := h.apart hp hr hpr
      omega

theorem erase_eq (hp : arenas p = some a) :
    (fun q => if p ≤ q ∧ q < p + a.pageCnt then none else arenas q) = update arenas p none := by
  funext q
  have hpos := h.pos hp
  by_cases e : q = p
  · rw [e, update_self, if_pos ⟨le_rfl, by omega⟩]
  · rw [update_of_ne e]
    split_ifs with hin
    · cases hq : arenas q with
      | none => rfl
      | some b =>
        have := h.apart hp hq (lt_of_le_of_ne hin.1 (Ne.symm e))
        omega
    · rfl

end

end Pages

/-! ## Blocks -/

/-- A block of an arena of a descriptor. -/
def IsBlock (arenas : ℕ → Option Arena) (d : DescPtr) (x : ℕ) : Prop :=
  ∃ n i, arenas (x / pgsize) = some ⟨some d, n⟩ ∧ i < d.blocksPerArena ∧ x = arenaToBlock (x / pgsize) d i

/-- A block in use is in an arena and not free, or follows the header of an arena of its own. -/
def IsLive (arenas : ℕ → Option Arena) (freeList : DescPtr → List ℕ) (b : Live) : Prop :=
  (∃ d, IsBlock arenas d b.addr ∧ b.addr ∉ freeList d ∧ b.requested ≤ d.blockSize) ∨
  ∃ cnt, arenas (b.addr / pgsize) = some ⟨none, cnt⟩ ∧ b.addr % pgsize = arenaSize ∧ b.requested + arenaSize ≤ cnt * pgsize

structure Blocks (arenas : ℕ → Option Arena) (freeList : DescPtr → List ℕ) (live : List Live) (full : Option ℕ) : Prop where
  free_nodup : ∀ d, (freeList d).Nodup
  free_block : ∀ {d x}, x ∈ freeList d → IsBlock arenas d x
  cnt : ∀ {p d n}, arenas p = some ⟨some d, n⟩ → n = (freeList d).countP fun x => x / pgsize = p
  cnt_lt : ∀ {p d n}, arenas p = some ⟨some d, n⟩ → full ≠ some p → n < d.blocksPerArena
  live_nodup : (live.map (·.addr)).Nodup
  live_block : ∀ b ∈ live, IsLive arenas freeList b
  covered : ∀ {p d n i}, arenas p = some ⟨some d, n⟩ → i < d.blocksPerArena →
    arenaToBlock p d i ∈ freeList d ∨ arenaToBlock p d i ∈ live.map (·.addr)
  big : ∀ {p cnt}, arenas p = some ⟨none, cnt⟩ → p * pgsize + arenaSize ∈ live.map (·.addr)

theorem arena_inj {m : ℕ} (h : (some ⟨some d, n⟩ : Option Arena) = some ⟨some d', m⟩) : d = d' ∧ n = m := by
  obtain ⟨hd, hn⟩ := Arena.mk.inj (Option.some.inj h)
  exact ⟨Option.some.inj hd, hn⟩

theorem IsBlock.of_index (ha : arenas p = some ⟨some d, n⟩) (hi : i < d.blocksPerArena) : IsBlock arenas d (arenaToBlock p d i) := by
  have hdiv := block_div p hi
  exact ⟨n, i, by rw [hdiv, ha], hi, by rw [hdiv]⟩

theorem IsBlock.arena (h : IsBlock arenas d x) : ∃ n, arenas (x / pgsize) = some ⟨some d, n⟩ := by
  obtain ⟨n, _, hn, -⟩ := h
  exact ⟨n, hn⟩

theorem IsBlock.set {m : ℕ} (h : IsBlock arenas d x) (hp : arenas p = some ⟨some d', n⟩) :
    IsBlock (update arenas p (some ⟨some d', m⟩)) d x := by
  obtain ⟨k, i, hk, hi, hx⟩ := h
  by_cases e : x / pgsize = p
  · rw [e, hp] at hk
    obtain ⟨rfl, -⟩ := arena_inj hk
    exact ⟨m, i, by rw [e, update_self], hi, hx⟩
  · exact ⟨k, i, by rw [update_of_ne e, hk], hi, hx⟩

theorem page_ne {b : Arena} (hp : arenas p = none) (hq : arenas q = some b) : q ≠ p := by
  rintro rfl
  rw [hp] at hq
  cases hq

theorem IsBlock.add (h : IsBlock arenas d x) (hp : arenas p = none) (a : Arena) : IsBlock (update arenas p (some a)) d x := by
  obtain ⟨n, i, hn, hi, hx⟩ := h
  exact ⟨n, i, by rw [update_of_ne (page_ne hp hn), hn], hi, hx⟩

namespace Blocks

section

variable (h : Blocks arenas freeList live full)
include h

theorem filter_subset (p : ℕ) (d : DescPtr) :
    (freeList d).filter (fun x => x / pgsize = p) ⊆ (List.range d.blocksPerArena).map (arenaToBlock p d) := by
  intro x hx
  obtain ⟨hx, hdiv⟩ := mem_filter.1 hx
  obtain ⟨n, i, -, hi, heq⟩ := h.free_block hx
  rw [of_decide_eq_true hdiv] at heq
  exact mem_map.2 ⟨i, mem_range.2 hi, heq.symm⟩

theorem cnt_le (hp : arenas p = some ⟨some d, n⟩) : n ≤ d.blocksPerArena := by
  have hsub := (((h.free_nodup d).filter _).subperm (h.filter_subset p d)).length_le
  rwa [← countP_eq_length_filter, ← h.cnt hp, length_map, length_range] at hsub

theorem all_free (hp : arenas p = some ⟨some d, n⟩) (hn : d.blocksPerArena ≤ n)
    (hi : i < d.blocksPerArena) : arenaToBlock p d i ∈ freeList d := by
  have hsub := ((h.free_nodup d).filter _).subperm (h.filter_subset p d)
  have hlen : ((range d.blocksPerArena).map (arenaToBlock p d)).length ≤ ((freeList d).filter (fun x => x / pgsize = p)).length := by
    rwa [← countP_eq_length_filter, ← h.cnt hp, length_map, length_range]
  have hperm := hsub.perm_of_length_le hlen
  exact (mem_filter.1 (hperm.mem_iff.2 (mem_map.2 ⟨i, mem_range.2 hi, rfl⟩))).1

/-- An arena of which not all blocks are free has one in use. -/
theorem exists_live (hp : arenas p = some ⟨some d, n⟩) (hn : n < d.blocksPerArena) :
    ∃ i < d.blocksPerArena, arenaToBlock p d i ∈ live.map (·.addr) := by
  by_contra hnone
  push Not at hnone
  have hsub : (range d.blocksPerArena).map (arenaToBlock p d) ⊆ (freeList d).filter (fun x => x / pgsize = p) := by
    intro x hx
    obtain ⟨i, hi, rfl⟩ := mem_map.1 hx
    have hi := mem_range.1 hi
    exact mem_filter.2 ⟨(h.covered hp hi).resolve_right (hnone i hi), decide_eq_true (block_div p hi)⟩
  have hnodup : ((range d.blocksPerArena).map (arenaToBlock p d)).Nodup := nodup_range.map fun _ _ => block_inj
  have hlen := (hnodup.subperm hsub).length_le
  rw [← countP_eq_length_filter, ← h.cnt hp, length_map, length_range] at hlen
  omega

theorem live_arena (hx : x ∈ live.map (·.addr)) : arenas (x / pgsize) ≠ none := by
  obtain ⟨b, hb, rfl⟩ := mem_map.1 hx
  rcases h.live_block b hb with ⟨d, hblock, -⟩ | ⟨cnt, hcnt, -⟩
  · obtain ⟨n, hn⟩ := hblock.arena
    rw [hn]
    nofun
  · rw [hcnt]
    nofun

theorem countP_eq_zero (hp : arenas p = none) (d : DescPtr) :
    (freeList d).countP (fun x => x / pgsize = p) = 0 := by
  rw [List.countP_eq_zero]
  intro x hx hdiv
  obtain ⟨n, hn⟩ := (h.free_block hx).arena
  rw [of_decide_eq_true hdiv, hp] at hn
  cases hn

end

theorem nodup_update (h : Blocks arenas freeList live full) {l : List ℕ} (hl : l.Nodup) (d' : DescPtr) :
    (update freeList d l d').Nodup := by
  rw [update_apply]
  split_ifs
  · exact hl
  · exact h.free_nodup d'

theorem addArena (h : Blocks arenas freeList live none) (hp : arenas p = none) (d : DescPtr) :
    Blocks (update arenas p (some ⟨some d, d.blocksPerArena⟩))
      (update freeList d (freeList d ++ (List.range d.blocksPerArena).map (arenaToBlock p d))) live (some p) := by
  have hnew : ∀ {x}, x ∈ (range d.blocksPerArena).map (arenaToBlock p d) → x / pgsize = p := by
    intro x hx
    obtain ⟨i, hi, rfl⟩ := mem_map.1 hx
    exact block_div p (mem_range.1 hi)
  have hfree : ∀ {d' x}, IsBlock arenas d' x → x ∉ (range d.blocksPerArena).map (arenaToBlock p d) := by
    intro d' x hblock hx
    obtain ⟨n, hn⟩ := hblock.arena
    exact page_ne hp hn (hnew hx)
  have hmem : ∀ {d' x}, x ∈ update freeList d (freeList d ++ (range d.blocksPerArena).map (arenaToBlock p d)) d' ↔
      x ∈ freeList d' ∨ d' = d ∧ x ∈ (range d.blocksPerArena).map (arenaToBlock p d) := by
    intro d' x
    by_cases e : d' = d
    · subst e
      rw [update_self, mem_append]
      exact or_congr_right (and_iff_right rfl).symm
    · rw [update_of_ne e]
      exact (or_iff_left fun hx => e hx.1).symm
  refine ⟨h.nodup_update ?_, fun {d' x} hx => ?_, fun {q d' n} hq => ?_, fun {q d' n} hq hne => ?_, h.live_nodup, fun b hb => ?_,
    fun {q d' n i} hq hi => ?_, fun {q cnt} hq => ?_⟩
  · refine nodup_append.2 ⟨h.free_nodup d, nodup_range.map fun _ _ => block_inj, fun x hx y hy => ?_⟩
    rintro rfl
    exact hfree (h.free_block hx) hy
  · rcases hmem.1 hx with hx | ⟨rfl, hx⟩
    · exact (h.free_block hx).add hp _
    · obtain ⟨i, hi, rfl⟩ := mem_map.1 hx
      exact IsBlock.of_index (update_self ..) (mem_range.1 hi)
  · by_cases e : q = p
    · subst e
      rw [update_self] at hq
      obtain ⟨rfl, rfl⟩ := arena_inj hq
      rw [update_self, countP_append, h.countP_eq_zero hp, Nat.zero_add, countP_eq_length.2,
        length_map, length_range]
      exact fun x hx => decide_eq_true (hnew hx)
    · rw [update_of_ne e] at hq
      rw [h.cnt hq]
      by_cases e' : d' = d
      · subst e'
        have hzero : ((range d'.blocksPerArena).map (arenaToBlock p d')).countP (fun x => x / pgsize = q) = 0 :=
          List.countP_eq_zero.2 fun x hx hdiv => e ((of_decide_eq_true hdiv).symm.trans (hnew hx))
        rw [update_self, countP_append, hzero, Nat.add_zero]
      · rw [update_of_ne e']
  · have e : q ≠ p := fun e => hne (e ▸ rfl)
    rw [update_of_ne e] at hq
    exact h.cnt_lt hq nofun
  · rcases h.live_block b hb with ⟨d', hblock, hnot, hreq⟩ | ⟨cnt, hcnt, hmod, hreq⟩
    · refine .inl ⟨d', hblock.add hp _, fun hx => ?_, hreq⟩
      rcases hmem.1 hx with hx | ⟨-, hx⟩
      · exact hnot hx
      · exact hfree hblock hx
    · exact .inr ⟨cnt, by rw [update_of_ne (page_ne hp hcnt), hcnt], hmod, hreq⟩
  · by_cases e : q = p
    · subst e
      rw [update_self] at hq
      obtain ⟨rfl, -⟩ := arena_inj hq
      exact .inl (hmem.2 (.inr ⟨rfl, mem_map.2 ⟨i, mem_range.2 hi, rfl⟩⟩))
    · rw [update_of_ne e] at hq
      exact (h.covered hq hi).imp_left fun hx => hmem.2 (.inl hx)
  · by_cases e : q = p
    · rw [e, update_self] at hq
      cases hq
    · rw [update_of_ne e] at hq
      exact h.big hq

theorem addBig {requested : ℕ} (h : Blocks arenas freeList live none) (hp : arenas p = none)
    (hreq : requested + arenaSize ≤ cnt * pgsize) :
    Blocks (update arenas p (some ⟨none, cnt⟩)) freeList (⟨p * pgsize + arenaSize, requested⟩ :: live) none := by
  have hcases : ∀ {q d' n}, update arenas p (some ⟨none, cnt⟩) q = some ⟨some d', n⟩ → arenas q = some ⟨some d', n⟩ := by
    intro q d' n hq
    rcases set_cases hq with ⟨-, ha⟩ | ⟨-, hq⟩
    · cases ha
    · exact hq
  have hdiv : (p * pgsize + arenaSize) / pgsize = p ∧ (p * pgsize + arenaSize) % pgsize = arenaSize := by
    unfold pgsize arenaSize
    omega
  refine ⟨h.free_nodup, fun hx => (h.free_block hx).add hp _, fun hq => h.cnt (hcases hq), fun hq _ => h.cnt_lt (hcases hq) nofun, ?_,
    fun b hb => ?_, fun hq hi => (h.covered (hcases hq) hi).imp_right (mem_cons_of_mem _), fun {q m} hq => ?_⟩
  · refine nodup_cons.2 ⟨fun hmem => h.live_arena hmem ?_, h.live_nodup⟩
    rw [hdiv.1, hp]
  · rcases mem_cons.1 hb with rfl | hb
    · refine .inr ⟨cnt, ?_, hdiv.2, hreq⟩
      rw [hdiv.1, update_self]
    · rcases h.live_block b hb with ⟨d', hblock, hnot, hreq⟩ | ⟨m, hm, hmod, hreq⟩
      · exact .inl ⟨d', hblock.add hp _, hnot, hreq⟩
      · exact .inr ⟨m, by rw [update_of_ne (page_ne hp hm), hm], hmod, hreq⟩
  · by_cases e : q = p
    · rw [e]
      exact mem_cons_self
    · rw [update_of_ne e] at hq
      exact mem_cons_of_mem _ (h.big hq)

theorem live_not_free (h : Blocks arenas freeList live full) (hb : b ∈ live.map (·.addr)) (hp : arenas (b / pgsize) = some ⟨some d, n⟩) :
    IsBlock arenas d b ∧ b ∉ freeList d := by
  obtain ⟨l, hl, rfl⟩ := mem_map.1 hb
  rcases h.live_block l hl with ⟨d', hblock, hnot, -⟩ | ⟨cnt, hcnt, -⟩
  · obtain ⟨m, hm⟩ := hblock.arena
    rw [hp] at hm
    obtain ⟨rfl, -⟩ := arena_inj hm
    exact ⟨hblock, hnot⟩
  · rw [hp] at hcnt
    cases hcnt

theorem exists_of_set {m k : ℕ} (hp : arenas p = some ⟨some d, n⟩)
    (hq : update arenas p (some ⟨some d, m⟩) q = some ⟨some d', k⟩) : ∃ k', arenas q = some ⟨some d', k'⟩ := by
  rcases set_cases hq with ⟨rfl, ha⟩ | ⟨-, hq⟩
  · obtain ⟨rfl, -⟩ := arena_inj (congrArg some ha)
    exact ⟨n, hp⟩
  · exact ⟨k, hq⟩

theorem IsLive.set {m : ℕ} {freeList' : DescPtr → List ℕ} {l : Live} (h : IsLive arenas freeList l) (hp : arenas p = some ⟨some d, n⟩)
    (hfree : ∀ d', l.addr ∈ freeList' d' → l.addr ∈ freeList d') :
    IsLive (update arenas p (some ⟨some d, m⟩)) freeList' l := by
  rcases h with ⟨d', hblock, hnot, hreq⟩ | ⟨cnt, hcnt, hmod, hreq⟩
  · exact .inl ⟨d', hblock.set hp, fun hx => hnot (hfree d' hx), hreq⟩
  · refine .inr ⟨cnt, ?_, hmod, hreq⟩
    rw [update_of_ne, hcnt]
    intro e
    rw [e, hp] at hcnt
    cases hcnt

theorem countP_page_cons (b : ℕ) (l : List ℕ) :
    (b :: l).countP (fun x => x / pgsize = b / pgsize) = l.countP (fun x => x / pgsize = b / pgsize) + 1 :=
  countP_cons_of_pos (by rw [decide_eq_true_eq])

theorem pop {requested : ℕ} {l : List ℕ} (h : Blocks arenas freeList live full) (hl : freeList d = b :: l)
    (hp : arenas (b / pgsize) = some ⟨some d, n⟩) (hfull : ∀ p ∈ full, p = b / pgsize) (hreq : requested ≤ d.blockSize) :
    Blocks (update arenas (b / pgsize) (some ⟨some d, n - 1⟩)) (update freeList d l)
      (⟨b, requested⟩ :: live) none := by
  have hbfree : b ∈ freeList d := by
    rw [hl]
    exact mem_cons_self
  have hnodup := h.free_nodup d
  rw [hl, nodup_cons] at hnodup
  have hblock := h.free_block hbfree
  have hsub : ∀ {d' x}, x ∈ update freeList d l d' → x ∈ freeList d' := by
    intro d' x hx
    by_cases e : d' = d
    · subst e
      rw [update_self] at hx
      rw [hl]
      exact mem_cons_of_mem _ hx
    · rwa [update_of_ne e] at hx
  have hcount := h.cnt hp
  rw [hl, countP_page_cons] at hcount
  refine ⟨h.nodup_update hnodup.2, fun hx => (h.free_block (hsub hx)).set hp, fun {q d' m} hq => ?_, fun {q d' m} hq _ => ?_, ?_,
    fun x hx => ?_, fun {q d' m i} hq hi => ?_, fun {q m} hq => ?_⟩
  · rcases set_cases hq with ⟨rfl, ha⟩ | ⟨hne, hq⟩
    · obtain ⟨rfl, rfl⟩ := arena_inj (congrArg some ha)
      rw [update_self, hcount, Nat.add_sub_cancel]
    · rw [h.cnt hq]
      by_cases e : d' = d
      · subst e
        rw [update_self, hl, countP_cons_of_neg]
        exact fun hdiv => hne (of_decide_eq_true hdiv).symm
      · rw [update_of_ne e]
  · rcases set_cases hq with ⟨rfl, ha⟩ | ⟨hne, hq⟩
    · obtain ⟨rfl, rfl⟩ := arena_inj (congrArg some ha)
      have := h.cnt_le hp
      omega
    · exact h.cnt_lt hq fun hf => hne (hfull q hf)
  · exact nodup_cons.2 ⟨fun hmem => (h.live_not_free hmem hp).2 hbfree, h.live_nodup⟩
  · rcases mem_cons.1 hx with rfl | hx
    · refine .inl ⟨d, hblock.set hp, ?_, hreq⟩
      rw [update_self]
      exact hnodup.1
    · exact IsLive.set (h.live_block x hx) hp fun d' => hsub
  · obtain ⟨m', hq'⟩ := exists_of_set hp hq
    rcases h.covered hq' hi with hx | hx
    · by_cases e : d' = d
      · subst e
        rw [hl] at hx
        rw [update_self]
        rcases mem_cons.1 hx with hx | hx
        · exact .inr (by rw [hx]; exact mem_cons_self)
        · exact .inl hx
      · rw [update_of_ne e]
        exact .inl hx
    · exact .inr (mem_cons_of_mem _ hx)
  · rcases set_cases hq with ⟨-, ha⟩ | ⟨-, hq⟩
    · cases ha
    · exact mem_cons_of_mem _ (h.big hq)

theorem mem_taken : x ∈ (live.filter fun l => l.addr ≠ b).map (·.addr) ↔ x ∈ live.map (·.addr) ∧ x ≠ b := by
  simp only [mem_map, mem_filter, decide_eq_true_eq]
  constructor
  · rintro ⟨l, ⟨hl, hne⟩, rfl⟩
    exact ⟨⟨l, hl, rfl⟩, hne⟩
  · rintro ⟨⟨l, hl, rfl⟩, hne⟩
    exact ⟨l, ⟨hl, hne⟩, rfl⟩

theorem taken_nodup (h : Blocks arenas freeList live full) (b : ℕ) : ((live.filter fun l => l.addr ≠ b).map (·.addr)).Nodup :=
  h.live_nodup.sublist (filter_sublist.map _)

theorem push (h : Blocks arenas freeList live none) (hb : b ∈ live.map (·.addr)) (hp : arenas (b / pgsize) = some ⟨some d, n⟩) :
    Blocks (update arenas (b / pgsize) (some ⟨some d, n + 1⟩)) (update freeList d (b :: freeList d))
      (live.filter fun l => l.addr ≠ b) (some (b / pgsize)) := by
  obtain ⟨hblock, hnot⟩ := h.live_not_free hb hp
  have hmem : ∀ {d' x}, x ∈ update freeList d (b :: freeList d) d' ↔ x ∈ freeList d' ∨ d' = d ∧ x = b := by
    intro d' x
    by_cases e : d' = d
    · subst e
      rw [update_self, mem_cons, or_comm]
      exact or_congr_right (and_iff_right rfl).symm
    · rw [update_of_ne e]
      exact (or_iff_left fun hx => e hx.1).symm
  refine ⟨h.nodup_update (nodup_cons.2 ⟨hnot, h.free_nodup d⟩), fun {d' x} hx => ?_, fun {q d' m} hq => ?_,
    fun {q d' m} hq hne => ?_, h.taken_nodup b, fun x hx => ?_, fun {q d' m i} hq hi => ?_, fun {q m} hq => ?_⟩
  · rcases hmem.1 hx with hx | ⟨rfl, rfl⟩
    · exact (h.free_block hx).set hp
    · exact hblock.set hp
  · rcases set_cases hq with ⟨rfl, ha⟩ | ⟨hne, hq⟩
    · obtain ⟨rfl, rfl⟩ := arena_inj (congrArg some ha)
      rw [update_self, countP_page_cons, h.cnt hp]
    · rw [h.cnt hq]
      by_cases e : d' = d
      · subst e
        rw [update_self, countP_cons_of_neg]
        exact fun hdiv => hne (of_decide_eq_true hdiv).symm
      · rw [update_of_ne e]
  · rcases set_cases hq with ⟨rfl, -⟩ | ⟨-, hq⟩
    · exact absurd rfl hne
    · exact h.cnt_lt hq nofun
  · obtain ⟨hx, hxb⟩ := mem_filter.1 hx
    refine IsLive.set (h.live_block x hx) hp fun d' hd' => (hmem.1 hd').resolve_right ?_
    exact fun e => of_decide_eq_true hxb e.2
  · obtain ⟨m', hq'⟩ := exists_of_set hp hq
    rcases h.covered hq' hi with hx | hx
    · exact .inl (hmem.2 (.inl hx))
    · by_cases e : arenaToBlock q d' i = b
      · have hd : d' = d := by
          have hq := hq'
          rw [← block_div q hi, e, hp] at hq
          exact (arena_inj hq).1.symm
        exact .inl (hmem.2 (.inr ⟨hd, e⟩))
      · exact .inr (mem_taken.2 ⟨hx, e⟩)
  · rcases set_cases hq with ⟨-, ha⟩ | ⟨hne, hq⟩
    · cases ha
    · refine mem_taken.2 ⟨h.big hq, fun e => hne ?_⟩
      rw [← e]
      unfold pgsize arenaSize
      omega

theorem erased_iff : update arenas p none q = some a ↔ q ≠ p ∧ arenas q = some a := by
  by_cases e : q = p
  · rw [e, update_self]
    exact ⟨nofun, fun hq => absurd rfl hq.1⟩
  · rw [update_of_ne e]
    exact (and_iff_right e).symm

theorem removeArena (h : Blocks arenas freeList live (some p)) (hp : arenas p = some ⟨some d, n⟩) (hn : d.blocksPerArena ≤ n) :
    Blocks (update arenas p none) (update freeList d ((freeList d).filter fun x => x / pgsize ≠ p)) live none := by
  have hmem : ∀ {d' x}, x ∈ update freeList d ((freeList d).filter fun x => x / pgsize ≠ p) d' ↔
      x ∈ freeList d' ∧ x / pgsize ≠ p := by
    intro d' x
    by_cases e : d' = d
    · subst e
      rw [update_self, mem_filter, decide_eq_true_eq]
    · rw [update_of_ne e]
      refine ⟨fun hx => ⟨hx, fun hdiv => ?_⟩, fun hx => hx.1⟩
      obtain ⟨m, hm⟩ := (h.free_block hx).arena
      rw [hdiv, hp] at hm
      exact e (arena_inj hm).1.symm
  have hkeep : ∀ {d' x}, IsBlock arenas d' x → x / pgsize ≠ p → IsBlock (update arenas p none) d' x := by
    rintro d' x ⟨m, i, hm, hi, hx⟩ hne
    exact ⟨m, i, erased_iff.2 ⟨hne, hm⟩, hi, hx⟩
  refine ⟨h.nodup_update ((h.free_nodup d).filter _), fun hx => hkeep (h.free_block (hmem.1 hx).1) (hmem.1 hx).2,
    fun {q d' m} hq => ?_, fun {q d' m} hq _ => ?_, h.live_nodup, fun x hx => ?_, fun {q d' m i} hq hi => ?_,
    fun hq => h.big (erased_iff.1 hq).2⟩
  · obtain ⟨hne, hq⟩ := erased_iff.1 hq
    rw [h.cnt hq]
    by_cases e : d' = d
    · subst e
      rw [update_self, countP_filter]
      refine countP_congr fun x _ => ?_
      rw [Bool.and_eq_true, decide_eq_true_eq, decide_eq_true_eq]
      exact ⟨fun hx => ⟨hx, hx ▸ hne⟩, fun hx => hx.1⟩
    · rw [update_of_ne e]
  · obtain ⟨hne, hq⟩ := erased_iff.1 hq
    exact h.cnt_lt hq fun e => hne (Option.some.inj e).symm
  · rcases h.live_block x hx with ⟨d', hblock, hnot, hreq⟩ | ⟨cnt, hcnt, hmod, hreq⟩
    · have hne : x.addr / pgsize ≠ p := by
        rintro rfl
        obtain ⟨m, i, hm, hi, heq⟩ := hblock
        rw [hp] at hm
        obtain ⟨rfl, -⟩ := arena_inj hm
        rw [heq] at hnot
        exact hnot (h.all_free hp hn hi)
      exact .inl ⟨d', hkeep hblock hne, fun hd' => hnot (hmem.1 hd').1, hreq⟩
    · refine .inr ⟨cnt, erased_iff.2 ⟨fun e => ?_, hcnt⟩, hmod, hreq⟩
      rw [e, hp] at hcnt
      cases hcnt
  · obtain ⟨hne, hq⟩ := erased_iff.1 hq
    exact (h.covered hq hi).imp_left fun hx => hmem.2 ⟨hx, by rwa [block_div q hi]⟩

theorem removeBig (h : Blocks arenas freeList live none) (hb : b ∈ live.map (·.addr)) (hp : arenas (b / pgsize) = some ⟨none, cnt⟩) :
    Blocks (update arenas (b / pgsize) none) freeList (live.filter fun l => l.addr ≠ b) none := by
  have hkeep : ∀ {d' x}, IsBlock arenas d' x → IsBlock (update arenas (b / pgsize) none) d' x := by
    rintro d' x ⟨m, i, hm, hi, hx⟩
    refine ⟨m, i, erased_iff.2 ⟨fun e => ?_, hm⟩, hi, hx⟩
    rw [e, hp] at hm
    cases hm
  have hmod : ∀ {x}, x ∈ live → ∀ m, arenas (x.addr / pgsize) = some ⟨none, m⟩ → x.addr % pgsize = arenaSize := by
    intro x hx m hm
    rcases h.live_block x hx with ⟨d', hblock, -⟩ | ⟨-, -, hmod, -⟩
    · obtain ⟨k, hk⟩ := hblock.arena
      rw [hm] at hk
      cases hk
    · exact hmod
  obtain ⟨lb, hlb, rfl⟩ := mem_map.1 hb
  refine ⟨h.free_nodup, fun hx => hkeep (h.free_block hx), fun hq => h.cnt (erased_iff.1 hq).2, fun hq _ => h.cnt_lt (erased_iff.1 hq).2 nofun,
    h.taken_nodup _, fun x hx => ?_, fun {q d' m i} hq hi => ?_, fun {q m} hq => ?_⟩
  · obtain ⟨hx, hxb⟩ := mem_filter.1 hx
    rcases h.live_block x hx with ⟨d', hblock, hnot, hreq⟩ | ⟨m, hm, hmodx, hreq⟩
    · exact .inl ⟨d', hkeep hblock, hnot, hreq⟩
    · refine .inr ⟨m, erased_iff.2 ⟨fun e => of_decide_eq_true hxb ?_, hm⟩, hmodx, hreq⟩
      have hmodb := hmod hlb cnt hp
      rw [← Nat.div_add_mod x.addr pgsize, ← Nat.div_add_mod lb.addr pgsize, e, hmodx, hmodb]
  · obtain ⟨hne, hq⟩ := erased_iff.1 hq
    refine (h.covered hq hi).imp_right fun hx => mem_taken.2 ⟨hx, fun e => hne ?_⟩
    rw [← e, block_div q hi]
  · obtain ⟨hne, hq⟩ := erased_iff.1 hq
    refine mem_taken.2 ⟨h.big hq, fun e => hne ?_⟩
    rw [← e]
    unfold pgsize arenaSize
    omega

end Blocks

end Pintos.Malloc
