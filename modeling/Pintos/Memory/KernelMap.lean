/-
  The kernel's own mapping.

  The loop of `paging_init` carries the current page table in a variable, which it sets only where an entry
  of the page directory is zero.
-/
import Pintos.Lib.Avoids
import Pintos.Memory.Tables

namespace Pintos.Paging

open Lib Prog Function List

/-- The processor's walk through the tables: a physical address, and whether it may be written. -/
def walk (mem : ℕ → UInt8) (pd v : ℕ) : Option (ℕ × Bool) :=
  let pde := pageWord mem pd (pdNo v)
  let pte := pageWord mem (tableOf pde) (ptNo v)
  if ptePresent pde && ptePresent pte then some (pte / 4096 * 4096 + pgOfs v, pde / 2 % 2 == 1 && pte / 2 % 2 == 1)
  else none

/-- The address of the page is in the kernel text. -/
def InText (start end_ page : ℕ) : Prop := start ≤ physBase + page * 4096 ∧ physBase + page * 4096 < end_

instance (start end_ page : ℕ) : Decidable (InText start end_ page) := inferInstanceAs (Decidable (_ ∧ _))

/-- The entry of a page of memory. -/
def kernelPte (start end_ page : ℕ) : ℕ := page * 4096 + if InText start end_ page then 1 else 3

/-- The first `page` pages are mapped, through `made` page tables. -/
structure Kernel (start end_ pd : ℕ) (tables : ℕ → ℕ) (made page : ℕ) (st : State) : Prop where
  init : st.initPageDir = pd
  dir : pd ∈ st.used ∧ IsPage pd
  table : ∀ j < made, tables j ∈ st.used ∧ IsPage (tables j) ∧ tables j ≠ pd
  inj : ∀ i < made, ∀ j < made, tables i = tables j → i = j
  pde : ∀ i < 1024, pageWord st.mem pd i = if 768 ≤ i ∧ i < 768 + made then pdeOf (tables (i - 768)) else 0
  pte : ∀ j < made, ∀ k < 1024,
    pageWord st.mem (tables j) k = if j * 1024 + k < page then kernelPte start end_ (j * 1024 + k) else 0

variable {start end_ pd made page pt p : ℕ} {tables : ℕ → ℕ} {st : State}

theorem kernelPte_lt (h : page < 2 ^ 18) : kernelPte start end_ page < 2 ^ 32 := by
  unfold kernelPte
  split_ifs <;> omega

theorem pdeOf_bits (h : IsPage p) : ptePresent (pdeOf p) = true ∧ pdeOf p / 2 % 2 = 1 := by
  obtain ⟨h1, h2, -⟩ := h
  unfold ptePresent pdeOf physBase at *
  rw [beq_iff_eq]
  omega

theorem kernelPte_bits (start end_ page : ℕ) : kernelPte start end_ page / 4096 = page ∧ ptePresent (kernelPte start end_ page) = true ∧
    (kernelPte start end_ page / 2 % 2 == 1) = !decide (InText start end_ page) := by
  unfold kernelPte ptePresent
  by_cases h : InText start end_ page
  · rw [if_pos h, decide_eq_true h, beq_iff_eq, Bool.not_true, beq_eq_false_iff_ne]
    omega
  · rw [if_neg h, decide_eq_false h, beq_iff_eq, Bool.not_false, beq_iff_eq]
    omega

theorem ptov_run (h : page < 2 ^ 18) : (ptov (page * 4096 % 2 ^ 32)).run st = .ok (physBase + page * 4096, st) := by
  have hlt : page * 4096 % 2 ^ 32 < physBase := by
    unfold physBase
    omega
  have hpage : page * 4096 % 2 ^ 32 = page * 4096 := Nat.mod_eq_of_lt (by omega)
  have haddr : addr (page * 4096 % 2 ^ 32 + physBase) = physBase + page * 4096 := by
    rw [hpage, Nat.add_comm]
    exact Nat.mod_eq_of_lt (by unfold physBase; omega)
  unfold ptov
  rw [run_bind_ok (assert_run hlt), haddr]
  rfl

theorem pteCreateKernel_run : (pteCreateKernel (physBase + page * 4096) (!(start ≤ physBase + page * 4096 &&
    physBase + page * 4096 < end_))).run st = .ok (kernelPte start end_ page, st) := by
  have hofs : pgOfs (physBase + page * 4096) = 0 := by
    unfold pgOfs pgSize physBase
    omega
  have hmod : page * 4096 % 2 ^ 12 = 0 := by omega
  have htext : (decide (start ≤ physBase + page * 4096) && decide (physBase + page * 4096 < end_)) = decide (InText start end_ page) :=
    (Bool.decide_and ..).symm
  unfold pteCreateKernel
  rw [run_bind_ok (assert_run hofs), run_bind_ok (vtop_run (Nat.le_add_right ..)), Nat.add_sub_cancel_left, htext,
    Nat.or_assoc]
  unfold kernelPte
  by_cases h : InText start end_ page
  · rw [if_pos h, decide_eq_true h, Bool.not_true, if_neg (by decide), or_eq_add hmod (by decide)]
    rfl
  · rw [if_neg h, decide_eq_false h, Bool.not_false, if_pos rfl, or_eq_add hmod (by decide)]
    rfl

theorem indexes (page : ℕ) : pdNo (physBase + page * 4096) = 768 + page / 1024 ∧
    ptNo (physBase + page * 4096) = page % 1024 := by
  unfold pdNo ptNo pgSize physBase
  omega

/-- The state after a page is taken and cleared. -/
def State.zeroed (st : State) (p : ℕ) : State :=
  (st.called.take p).withMem (Lib.store st.mem p (List.replicate 4096 0))

theorem pallocGetPage_run (st : State) (user zero : Bool) :
    (st.pager.page st.calls user st.used = none ∧ (pallocGetPage user zero).run st = .ok (none, st.called)) ∨
    ∃ p, p ∉ st.used ∧ IsPage p ∧ (pallocGetPage user zero).run st =
      .ok (some p, (st.called.take p).withMem (if zero then store st.mem p (List.replicate 4096 0) else st.mem)) := by
  unfold pallocGetPage
  rw [run_bind_get]
  cases hp : st.pager.page st.calls user st.used with
  | none => exact .inl ⟨rfl, rfl⟩
  | some p =>
    obtain ⟨hfresh, hpage⟩ := st.pager.fresh hp
    refine .inr ⟨p, hfresh, hpage, ?_⟩
    cases zero <;> rfl

theorem pallocGetZeroed_avoids (st : State) : Avoids (· ≠ .palloc) pallocGetZeroed st fun p st' =>
    p ∉ st.used ∧ IsPage p ∧ st' = st.zeroed p := by
  rcases pallocGetPage_run st false true with ⟨-, hget⟩ | ⟨p, hfresh, hp, hget⟩
  · exact Avoids.bind_run hget (Avoids.throw fun h => h rfl)
  · exact Avoids.bind_run hget (Avoids.pure ⟨hfresh, hp, rfl⟩)

namespace Kernel

section

variable (h : Kernel start end_ pd tables made page st)
include h

theorem newTable (hmade : made * 1024 = page) (hlt : page < 2 ^ 18)
    (hfresh : p ∉ st.used) (hp : IsPage p) : Kernel start end_ pd (update tables made p) (made + 1) page
      ((st.zeroed p).withMem (putWord (st.zeroed p).mem (pd + 4 * (768 + made)) (pdeOf p))) := by
  have hpd : pd ≠ p := fun e => hfresh (e ▸ h.dir.1)
  have hold : ∀ j < made, update tables made p j = tables j := fun j hj => update_of_ne (by omega) ..
  have hne : ∀ j < made, tables j ≠ p := fun j hj e => hfresh (e ▸ (h.table j hj).1)
  have hword : ∀ q k, q % 4096 = 0 → k < 1024 → pageWord (putWord (st.zeroed p).mem (pd + 4 * (768 + made)) (pdeOf p)) q k =
      if q = pd ∧ k = 768 + made then pdeOf p else pageWord (st.zeroed p).mem q k := fun q k hq hk =>
    pageWord_putWord h.dir.2.aligned hq (by omega) hk (lt_trans (pdeOf_lt hp) (by decide))
  have hzeroed : ∀ q k, q % 4096 = 0 → k < 1024 → q ≠ p → pageWord (st.zeroed p).mem q k = pageWord st.mem q k :=
    fun q k hq hk hne => pageWord_store hp.aligned hq hk hne (by rw [length_replicate])
  refine ⟨h.init, ⟨mem_cons_of_mem _ h.dir.1, h.dir.2⟩, fun j hj => ?_, fun i hi j hj e => ?_, fun i hi => ?_, fun j hj k hk => ?_⟩
  · rcases Nat.lt_succ_iff_lt_or_eq.1 hj with hj | rfl
    · obtain ⟨h1, h2⟩ := h.table j hj
      rw [hold j hj]
      exact ⟨mem_cons_of_mem _ h1, h2⟩
    · rw [update_self]
      exact ⟨mem_cons_self, hp, hpd.symm⟩
  · rcases Nat.lt_succ_iff_lt_or_eq.1 hi with hi | rfl <;> rcases Nat.lt_succ_iff_lt_or_eq.1 hj with hj | rfl
    · rw [hold i hi, hold j hj] at e
      exact h.inj i hi j hj e
    · rw [hold i hi, update_self] at e
      exact absurd e (hne i hi)
    · rw [hold j hj, update_self] at e
      exact absurd e.symm (hne j hj)
    · rfl
  · refine (hword pd i h.dir.2.aligned hi).trans ?_
    rw [hzeroed pd i h.dir.2.aligned hi hpd, h.pde i hi]
    by_cases he : i = 768 + made
    · rw [if_pos ⟨rfl, he⟩, if_pos (by omega), he, Nat.add_sub_cancel_left, update_self]
    · rw [if_neg fun hc => he hc.2]
      split_ifs with h1 h2 h2
      · rw [hold _ (by omega)]
      · omega
      · omega
      · rfl
  · rcases Nat.lt_succ_iff_lt_or_eq.1 hj with hj | rfl
    · obtain ⟨-, hpage, hdir⟩ := h.table j hj
      rw [hold j hj]
      refine (hword _ k hpage.aligned hk).trans ?_
      rw [if_neg fun hc => hdir hc.1, hzeroed _ k hpage.aligned hk (hne j hj), h.pte j hj k hk]
    · rw [update_self, if_neg (by omega)]
      refine (hword p k hp.aligned hk).trans ?_
      rw [if_neg fun hc => hpd hc.1.symm]
      exact pageWord_zeros hk

theorem entry (hlt : page < 2 ^ 18) (hmade : page / 1024 < made) :
    Kernel start end_ pd tables made (page + 1)
      (st.withMem (putWord st.mem (tables (page / 1024) + 4 * (page % 1024)) (kernelPte start end_ page))) := by
  obtain ⟨-, hpage, hdir⟩ := h.table _ hmade
  have hword : ∀ q k, q % 4096 = 0 → k < 1024 → pageWord (putWord st.mem (tables (page / 1024) + 4 * (page % 1024))
      (kernelPte start end_ page)) q k = if q = tables (page / 1024) ∧ k = page % 1024 then kernelPte start end_ page else
        pageWord st.mem q k := fun q k hq hk => pageWord_putWord hpage.aligned hq (by omega) hk (kernelPte_lt hlt)
  refine ⟨h.init, h.dir, h.table, h.inj, fun i hi => ?_, fun j hj k hk => ?_⟩
  · refine (hword pd i h.dir.2.aligned hi).trans ?_
    rw [if_neg fun hc => hdir hc.1.symm, h.pde i hi]
  · refine (hword _ k (h.table j hj).2.1.aligned hk).trans ?_
    rw [h.pte j hj k hk]
    by_cases hnow : j * 1024 + k = page
    · rw [if_pos ⟨congrArg tables (by omega), by omega⟩, if_pos (by omega), hnow]
    · rw [if_neg fun hc => hnow (by have := h.inj j hj _ hmade hc.1; omega)]
      exact if_congr (by omega) rfl rfl

/-- The variable `pt` of the loop is the table of the page, unless a new one has to be made. -/
theorem pagingTable (hlt : page < 2 ^ 18) (hmade : made = (page + 1023) / 1024)
    (hpt : page % 1024 ≠ 0 → pt = tables (page / 1024)) :
    Avoids (· ≠ .palloc) (pagingTable pd (768 + page / 1024) pt) st fun q st' => ∃ tables',
      Kernel start end_ pd tables' (page / 1024 + 1) page st' ∧ q = tables' (page / 1024) := by
  have hpde := h.pde (768 + page / 1024) (by omega)
  refine Avoids.bind_run (readWord_page_run _ _) ?_
  by_cases h0 : page % 1024 = 0
  · obtain rfl : page / 1024 = made := by omega
    rw [if_neg (by omega)] at hpde
    rw [if_pos hpde]
    refine (pallocGetZeroed_avoids st).bind fun p st' ⟨hfresh, hp, hst'⟩ => ?_
    refine Avoids.bind_run (pdeCreate_run hp) (Avoids.bind_run (writeWord_run _ _) (Avoids.pure ?_))
    rw [hst']
    exact ⟨_, h.newTable (by omega) hlt hfresh hp, (update_self (page / 1024) p tables).symm⟩
  · obtain rfl : page / 1024 + 1 = made := by omega
    rw [if_pos (by omega)] at hpde
    rw [if_neg (by rw [hpde]; exact Nat.succ_ne_zero _)]
    exact Avoids.pure ⟨tables, h, hpt h0⟩

end

theorem pagingLoop : ∀ (n page pt made : ℕ) (tables : ℕ → ℕ) (st : State), Kernel start end_ pd tables made page st →
    page + n ≤ 2 ^ 18 → made = (page + 1023) / 1024 → (page % 1024 ≠ 0 → pt = tables (page / 1024)) →
    Avoids (· ≠ .palloc) (pagingLoop start end_ pd n page pt) st fun _ st' => ∃ tables,
      Kernel start end_ pd tables ((page + n + 1023) / 1024) (page + n) st'
  | 0, page, pt, made, tables, st, h, _, hmade, _ => Avoids.pure ⟨tables, hmade ▸ h⟩
  | n + 1, page, pt, made, tables, st, h, hle, hmade, hpt => by
    have hlt : page < 2 ^ 18 := by omega
    refine Avoids.bind_run (ptov_run hlt) ?_
    rw [(indexes page).1, (indexes page).2]
    refine (h.pagingTable hlt hmade hpt).bind fun q st' ⟨tables', h', hq⟩ => ?_
    refine Avoids.bind_run pteCreateKernel_run (Avoids.bind_run (writeWord_run _ _) ?_)
    rw [hq]
    have := pagingLoop n (page + 1) (tables' (page / 1024)) _ tables' _ (h'.entry hlt (by omega)) (by omega) (by omega)
      fun h0 => congrArg tables' (by omega)
    rwa [Nat.add_right_comm page 1 n] at this

theorem walk_eq (h : Kernel start end_ pd tables ((page + 1023) / 1024) page st) {v : ℕ} (hv : v < 2 ^ 32) :
    walk st.mem pd v = if physBase ≤ v ∧ v - physBase < page * 4096 then
      some (v - physBase, !decide (InText start end_ ((v - physBase) / 4096))) else none := by
  have hpde := h.pde (pdNo v) (by unfold pdNo; omega)
  unfold walk
  dsimp only
  by_cases hin : 768 ≤ pdNo v ∧ pdNo v < 768 + (page + 1023) / 1024
  · obtain ⟨-, hpage, -⟩ := h.table (pdNo v - 768) (by omega)
    have hno : (pdNo v - 768) * 1024 + ptNo v = (v - physBase) / 4096 ∧ physBase ≤ v ∧
        (v - physBase) / 4096 * 4096 + pgOfs v = v - physBase := by
      unfold pdNo ptNo pgOfs pgSize physBase at *
      omega
    obtain ⟨hpresent, hwrite⟩ := pdeOf_bits hpage
    rw [hpde, if_pos hin, tableOf_pdeOf hpage, h.pte (pdNo v - 768) (by omega) (ptNo v) (Nat.mod_lt _ (by decide)), hpresent, hwrite, hno.1]
    by_cases hlt : v - physBase < page * 4096
    · obtain ⟨haddr, hpresent, hwrite⟩ := kernelPte_bits start end_ ((v - physBase) / 4096)
      rw [if_pos (Nat.div_lt_of_lt_mul (by omega)), haddr, hpresent, hwrite, hno.2.2, if_pos (And.intro hno.2.1 hlt)]
      rfl
    · have hge : ¬ (v - physBase) / 4096 < page := by omega
      rw [if_neg hge, if_neg fun hc => hlt (And.right hc)]
      rfl
  · have hout : ¬ (physBase ≤ v ∧ v - physBase < page * 4096) := by
      unfold pdNo physBase at *
      omega
    rw [hpde, if_neg hin, if_neg hout]
    rfl

theorem tables_apart (h : Kernel start end_ pd tables made page st) {i j : ℕ} (hi : i < 1024) (hj : j < 1024)
    (hne : pageWord st.mem pd i ≠ 0) (hne' : pageWord st.mem pd j ≠ 0)
    (heq : tableOf (pageWord st.mem pd i) = tableOf (pageWord st.mem pd j)) : i = j := by
  have hin : ∀ k < 1024, pageWord st.mem pd k ≠ 0 → 768 ≤ k ∧ k < 768 + made := fun k hk hne => by
    rw [h.pde k hk] at hne
    by_contra hout
    exact hne (if_neg hout)
  have hi' := hin i hi hne
  have hj' := hin j hj hne'
  rw [h.pde i hi, h.pde j hj, if_pos hi', if_pos hj', tableOf_pdeOf (h.table _ (by omega)).2.1, tableOf_pdeOf (h.table _ (by omega)).2.1] at heq
  have := h.inj _ (by omega) _ (by omega) heq
  omega

end Kernel

theorem pagingInit_kernel (start end_ : ℕ) (hram : st.initRamPages ≤ 2 ^ 18) :
    Avoids (· ≠ .palloc) (pagingInit start end_) st fun _ st' => ∃ pd tables,
      Kernel start end_ pd tables ((st.initRamPages + 1023) / 1024) st.initRamPages st' := by
  refine (pallocGetZeroed_avoids st).bind fun pd st1 ⟨_, hpd, hst1⟩ => ?_
  refine Avoids.bind_run (run_modify _ _) (Avoids.bind_run (run_get _) ?_)
  rw [hst1]
  have h : Kernel start end_ pd id 0 0 { st.zeroed pd with initPageDir := pd } :=
    ⟨rfl, ⟨mem_cons_self, hpd⟩, nofun, nofun, fun i hi => (pageWord_zeros hi).trans (if_neg (by omega)).symm, nofun⟩
  have := h.pagingLoop st.initRamPages 0 0 0 _ _ (by omega) rfl fun h0 => absurd rfl h0
  rw [Nat.zero_add] at this
  exact this.mono fun _ _ h => ⟨pd, h⟩

variable {st' : State}

theorem ok_of_assert {P : Prop} [Decidable P] (h : (assert P).run st = .ok ((), st')) : P ∧ st' = st := by
  unfold assert at h
  split_ifs at h with hP
  · exact ⟨hP, (ok_inj h).2.symm⟩
  · cases h

theorem pages_le_of_pagingLoop : ∀ (n page pt : ℕ) (st : State), page ≤ 2 ^ 18 →
    (pagingLoop start end_ pd n page pt).run st = .ok ((), st') → page + n ≤ 2 ^ 18
  | 0, _, _, _, h, _ => h
  | n + 1, page, pt, st, h, hrun => by
    obtain ⟨vaddr, st1, hptov, hrun⟩ := ok_of_run_bind hrun
    obtain ⟨q, st2, -, hrun⟩ := ok_of_run_bind hrun
    obtain ⟨pte, st3, hpte, hrun⟩ := ok_of_run_bind hrun
    obtain ⟨_, st4, -, hrun⟩ := ok_of_run_bind hrun
    obtain ⟨_, _, -, hvaddr⟩ := ok_of_run_bind hptov
    obtain ⟨_, _, -, hpte⟩ := ok_of_run_bind hpte
    obtain ⟨_, _, hvtop, -⟩ := ok_of_run_bind hpte
    obtain ⟨_, _, hassert, -⟩ := ok_of_run_bind hvtop
    have hle := (ok_of_assert hassert).1
    rw [← (ok_inj hvaddr).1] at hle
    have hlt : page < 2 ^ 18 := by
      unfold addr physBase at hle
      omega
    have := pages_le_of_pagingLoop n (page + 1) q st4 hlt hrun
    omega

theorem pages_le_of_pagingInit (hrun : (pagingInit start end_).run st = .ok ((), st')) : st.initRamPages ≤ 2 ^ 18 := by
  obtain ⟨pd, st1, hget, hrun⟩ := ok_of_run_bind hrun
  have := pages_le_of_pagingLoop _ _ _ _ (Nat.zero_le _) hrun
  rwa [((pallocGetZeroed_avoids st).ok hget).2.2, Nat.zero_add] at this

/-- An allocator that returns a new page for each of its first calls. -/
def pagesInOrder : Pager where
  page n _ used := if physBase + 4096 * (n + 1) ∉ used ∧ n < 1000 then some (physBase + 4096 * (n + 1)) else none
  fresh {n user used p} h := by
    split_ifs at h with hn
    obtain rfl := Option.some.inj h
    refine ⟨hn.1, ?_, ?_, ?_⟩ <;> unfold physBase <;> omega

theorem pagesInOrder_page {n : ℕ} {user : Bool} {used : List ℕ} (h : physBase + 4096 * (n + 1) ∉ used) (hn : n < 1000) :
    pagesInOrder.page n user used = some (physBase + 4096 * (n + 1)) := if_pos ⟨h, hn⟩

/-- A machine with one page of memory. -/
def onePage : State where
  mem := fun _ => 0
  pager := pagesInOrder
  calls := 0
  used := []
  taken := []
  freed := []
  initPageDir := 0
  initRamPages := 1

theorem pallocGetZeroed_run (h : st.pager.page st.calls false st.used = some p) :
    pallocGetZeroed.run st = .ok (p, st.zeroed p) := by
  unfold pallocGetZeroed pallocGetPage
  rw [bind_assoc, run_bind_get, h]
  rfl

theorem pagingInit_onePage : ∃ st', (pagingInit 0 0).run onePage = .ok ((), st') ∧ st'.pager = pagesInOrder ∧
    st'.calls = 2 ∧ st'.used = [physBase + 4096 * 2, physBase + 4096 * 1] ∧ st'.initRamPages = 1 := by
  obtain ⟨pd, hpd⟩ : ∃ pd, pd = physBase + 4096 * 1 := ⟨_, rfl⟩
  obtain ⟨pt, hpt⟩ : ∃ pt, pt = physBase + 4096 * 2 := ⟨_, rfl⟩
  have hpage : IsPage pt := by
    rw [hpt]
    exact ⟨by decide, by decide, by decide⟩
  rw [← hpd, ← hpt]
  have hinit : pallocGetZeroed.run onePage = .ok (pd, onePage.zeroed pd) := by
    rw [hpd]
    exact pallocGetZeroed_run (pagesInOrder_page not_mem_nil (by decide))
  set st : State := { onePage.zeroed pd with initPageDir := pd }
  have hpde : pageWord st.mem pd (pdNo physBase) = 0 := pageWord_zeros (by decide)
  have hget : pallocGetZeroed.run st = .ok (pt, st.zeroed pt) := by
    refine pallocGetZeroed_run ?_
    change pagesInOrder.page 1 false [pd] = some pt
    rw [hpd, hpt]
    exact pagesInOrder_page (by decide) (by decide)
  obtain ⟨st1, htable, hst1⟩ : ∃ st1, (pagingTable pd (pdNo physBase) 0).run st = .ok (pt, st1) ∧
      st1 = (st.zeroed pt).withMem (putWord (st.zeroed pt).mem (pd + 4 * pdNo physBase) (pdeOf pt)) := by
    refine ⟨_, ?_, rfl⟩
    unfold pagingTable
    rw [run_bind_ok (readWord_page_run _ _), if_pos hpde, run_bind_ok hget, run_bind_ok (pdeCreate_run hpage),
      run_bind_ok (writeWord_run _ _)]
    rfl
  have hloop : (pagingLoop 0 0 pd 1 0 0).run st = .ok ((), st1.withMem (putWord st1.mem (pt + 4 * ptNo physBase) 3)) := by
    unfold pagingLoop
    rw [run_bind_ok (show (ptov (0 * 4096 % 2 ^ 32)).run st = .ok (physBase, st) from rfl), run_bind_ok htable,
      run_bind_ok (show (pteCreateKernel physBase (!(0 ≤ physBase && physBase < 0))).run st1 = .ok (3, st1) from rfl),
      run_bind_ok (writeWord_run _ _)]
    rfl
  refine ⟨_, (run_bind_ok hinit).trans hloop, ?_, ?_, ?_, ?_⟩ <;> rw [hst1] <;> rfl

/-- **The kernel's mapping.**  `paging_init` returns unless there is no page for it; then the memory is mapped at
    `PHYS_BASE` and nothing else is, the kernel text read-only, and the entries of the page directory have
    page tables of their own. -/
theorem pagingInit_maps (start end_ : ℕ) (st : State) (hram : st.initRamPages ≤ 2 ^ 18)
    (hpalloc : (pagingInit start end_).run st ≠ .error .palloc) : ∃ st', (pagingInit start end_).run st = .ok ((), st') ∧
    (∀ a < st.initRamPages * 4096, walk st'.mem st'.initPageDir (physBase + a) = some (a, !decide (InText start end_ (a / 4096)))) ∧
    (∀ v < 2 ^ 32, walk st'.mem st'.initPageDir v ≠ none → ∃ a < st.initRamPages * 4096, v = physBase + a) ∧
    (start % 4096 = 0 → ∀ page, InText start end_ page ↔ ∃ x, start ≤ x ∧ x < end_ ∧ x / 4096 = (physBase + page * 4096) / 4096) ∧
    ∀ i < 1024, ∀ j < 1024, pageWord st'.mem st'.initPageDir i ≠ 0 → pageWord st'.mem st'.initPageDir j ≠ 0 →
      tableOf (pageWord st'.mem st'.initPageDir i) = tableOf (pageWord st'.mem st'.initPageDir j) → i = j := by
  have hinit := pagingInit_kernel start end_ hram
  obtain ⟨⟨⟩, st', hrun⟩ : ∃ u st', (pagingInit start end_).run st = .ok (u, st') := by
    cases hrun : (pagingInit start end_).run st with
    | error e => exact absurd (not_not.1 (hinit.error hrun) ▸ hrun) hpalloc
    | ok r => exact ⟨r.1, r.2, rfl⟩
  obtain ⟨pd, tables, h⟩ := hinit.ok hrun
  refine ⟨st', hrun, ?_⟩
  rw [h.init]
  refine ⟨fun a ha => ?_, fun v hv hne => ?_, fun hstart page => ?_, fun i hi j hj => h.tables_apart hi hj⟩
  · rw [h.walk_eq (by unfold physBase; omega), Nat.add_sub_cancel_left, if_pos ⟨Nat.le_add_right .., ha⟩]
  · rw [h.walk_eq hv] at hne
    split_ifs at hne with hin
    · exact ⟨v - physBase, hin.2, by omega⟩
    · exact absurd rfl hne
  · constructor
    · rintro ⟨h1, h2⟩
      exact ⟨_, h1, h2, rfl⟩
    · rintro ⟨x, h1, h2, hx⟩
      unfold InText physBase at *
      omega

theorem pagingInit_maps_onePage : ∃ st', (pagingInit 0 0).run onePage = .ok ((), st') ∧
    walk st'.mem st'.initPageDir 0xc0000123 = some (0x123, true) := by
  obtain ⟨st', hrun, -⟩ := pagingInit_onePage
  obtain ⟨st'', hrun', hmap, -⟩ := pagingInit_maps 0 0 onePage (by decide) (by rw [hrun]; nofun)
  exact ⟨st'', hrun', hmap 0x123 (by decide)⟩

end Pintos.Paging
