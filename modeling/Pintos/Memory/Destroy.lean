/-
  `pagedir_destroy` frees the pages of a page directory.

  A page is filled when it is freed, so that what is still to be read must not be among the pages
  that are freed before: the pages of a directory are distinct.
-/
import Pintos.Lib.Total
import Pintos.Memory.PageMaps

namespace Pintos.Paging

open Lib Prog List

section
variable {st st' st'' : State} {l l' r : List ℕ} {p pd pt i j n : ℕ}

/-- The words of all pages are the same, but for pages of `l`. -/
def SameWords (l : List ℕ) (mem mem' : ℕ → UInt8) : Prop :=
  ∀ q j, q % 4096 = 0 → j < 1024 → q ∉ l → pageWord mem' q j = pageWord mem q j

theorem SameWords.refl (mem : ℕ → UInt8) : SameWords l mem mem := fun _ _ _ _ _ => rfl

theorem SameWords.trans (h : SameWords l st.mem st'.mem) (h' : SameWords l' st'.mem st''.mem) :
    SameWords (l ++ l') st.mem st''.mem := by
  intro q j hq hj hmem
  rw [mem_append, not_or] at hmem
  rw [h' q j hq hj hmem.2, h q j hq hj hmem.1]

theorem pallocFreePage_run (hle : physBase ≤ p) (hused : p ∈ st.used) :
    (pallocFreePage p).run st = .ok ((), (st.withMem (store st.mem p (List.replicate 4096 0xcc))).free p) := by
  have hne : p ≠ 0 := by
    unfold physBase at hle
    omega
  unfold pallocFreePage
  rw [run_bind_get, if_neg hne, if_pos hused]
  rfl

theorem pallocFreePage_returns (hp : p % 4096 = 0) (hle : physBase ≤ p) (hused : st.used.Perm (p :: r)) :
    Prog.Returns (pallocFreePage p) st fun _ st' => st'.used.Perm r ∧ SameWords [p] st.mem st'.mem := by
  refine .of_run (pallocFreePage_run hle (hused.mem_iff.2 mem_cons_self)) ⟨?_, fun q j hq hj hmem => ?_⟩
  · exact (hused.erase p).trans (by rw [erase_cons_head])
  · exact pageWord_store hp hq hj (fun he => hmem (he ▸ mem_singleton_self q)) (by rw [length_replicate])

theorem tableOf_aligned (v : ℕ) : tableOf v % 4096 = 0 ∧ physBase ≤ tableOf v := by
  unfold tableOf physBase
  omega

/-- The frames of the entries from `j` on. -/
def framesFrom (mem : ℕ → UInt8) (pt n j : ℕ) : List ℕ :=
  (List.range n).flatMap fun k => ((decode (pageWord mem pt (j + k))).map Prod.fst).toList

theorem framesFrom_succ (mem : ℕ → UInt8) (pt n j : ℕ) :
    framesFrom mem pt (n + 1) j = ((decode (pageWord mem pt j)).map Prod.fst).toList ++ framesFrom mem pt n (j + 1) :=
  flatMap_range_from (fun k => ((decode (pageWord mem pt k)).map Prod.fst).toList) n j

theorem framesFrom_congr (h : SameWords l st.mem st'.mem) (hpt : pt % 4096 = 0) (hmem : pt ∉ l) (hn : j + n ≤ 1024) :
    framesFrom st'.mem pt n j = framesFrom st.mem pt n j :=
  flatMap_range_congr fun k hk => by rw [h pt (j + k) hpt (by omega) hmem]

theorem destroyTable_returns (hpt : pt % 4096 = 0) :
    ∀ (n j : ℕ) (st : State), j + n ≤ 1024 → (∀ k, j ≤ k → k < 1024 → pageWord st.mem pt k < 2 ^ 30) →
      (framesFrom st.mem pt n j).Nodup → pt ∉ framesFrom st.mem pt n j → st.used.Perm (framesFrom st.mem pt n j ++ r) →
      Prog.Returns (destroyTable pt n j) st fun _ st' =>
        st'.used.Perm r ∧ SameWords (framesFrom st.mem pt n j) st.mem st'.mem
  | 0, j, st, _, _, _, _, hused => .pure ⟨hused, .refl _⟩
  | n + 1, j, st, hn, hword, hnodup, hmem, hused => by
    have hj := hword j le_rfl (by omega)
    have hword' : ∀ k, j + 1 ≤ k → k < 1024 → pageWord st.mem pt k < 2 ^ 30 := fun k hk => hword k (by omega)
    rw [framesFrom_succ] at hnodup hmem hused ⊢
    unfold destroyTable
    refine .bind_run (readWord_page_run pt j) ?_
    by_cases hpresent : pageWord st.mem pt j &&& 0x1 ≠ 0
    · have hdecode : ((decode (pageWord st.mem pt j)).map Prod.fst).toList = [tableOf (pageWord st.mem pt j)] := by
        unfold decode
        rw [if_pos (and_one_ne_zero.1 hpresent)]
        rfl
      obtain ⟨halign, hle⟩ := tableOf_aligned (pageWord st.mem pt j)
      rw [hdecode, singleton_append] at hnodup hmem hused
      rw [hdecode, if_pos hpresent]
      refine .bind_run (ptov_mask_run hj) ((pallocFreePage_returns halign hle hused).bind ?_)
      rintro - st1 ⟨hused1, hsame1⟩
      obtain ⟨hne, hmem1⟩ := not_or.1 (mem_cons.not.1 hmem)
      have hpt1 : pt ∉ [tableOf (pageWord st.mem pt j)] := fun hm => hne (mem_singleton.1 hm)
      have hframes := framesFrom_congr hsame1 hpt hpt1 (show j + 1 + n ≤ 1024 by omega)
      refine (destroyTable_returns hpt n (j + 1) st1 (by omega) (fun k hk hlt => ?_) ?_ ?_ ?_).mono ?_
      · rw [hsame1 pt k hpt hlt hpt1]
        exact hword' k hk hlt
      · rw [hframes]
        exact (nodup_cons.1 hnodup).2
      · rw [hframes]
        exact hmem1
      · rw [hframes]
        exact hused1
      · rintro - st2 ⟨hused2, hsame2⟩
        rw [hframes] at hsame2
        exact ⟨hused2, hsame1.trans hsame2⟩
    · have hdecode : ((decode (pageWord st.mem pt j)).map Prod.fst).toList = [] := by
        unfold decode
        rw [if_neg (and_one_ne_zero.not.1 hpresent)]
        rfl
      rw [hdecode, nil_append] at hnodup hmem hused ⊢
      rw [if_neg hpresent]
      exact destroyTable_returns hpt n (j + 1) st (by omega) hword' hnodup hmem hused

/-- The entry `i` of a page directory is empty or points to a page table. -/
def EntryOk (mem : ℕ → UInt8) (pd i : ℕ) : Prop :=
  pageWord mem pd i = 0 ∨ ∃ pt, IsPage pt ∧ pageWord mem pd i = pdeOf pt ∧ ∀ j < 1024, pageWord mem pt j < 2 ^ 30

/-- The pages of the entries from `i` on. -/
def pagesFrom (mem : ℕ → UInt8) (pd n i : ℕ) : List ℕ := (List.range n).flatMap fun k => pagesAt mem pd (i + k)

theorem pagesFrom_succ (mem : ℕ → UInt8) (pd n i : ℕ) :
    pagesFrom mem pd (n + 1) i = pagesAt mem pd i ++ pagesFrom mem pd n (i + 1) :=
  flatMap_range_from (pagesAt mem pd) n i

theorem mem_pagesFrom {k : ℕ} (hik : i ≤ k) (hk : k < i + n) (hp : p ∈ pagesAt st.mem pd k) : p ∈ pagesFrom st.mem pd n i := by
  refine mem_flatMap_range.2 ⟨k - i, by omega, ?_⟩
  rwa [Nat.add_sub_cancel' hik]

theorem pagesFrom_congr (h : SameWords l st.mem st'.mem) (hpd : pd % 4096 = 0) (hmem : pd ∉ l) (hn : i + n ≤ 768)
    (hentry : ∀ k, i ≤ k → k < 768 → EntryOk st.mem pd k) (hdisj : ∀ p ∈ pagesFrom st.mem pd n i, p ∉ l) :
    pagesFrom st'.mem pd n i = pagesFrom st.mem pd n i ∧ ∀ k, i ≤ k → k < i + n → EntryOk st'.mem pd k := by
  have hword : ∀ k, k < i + n → pageWord st'.mem pd k = pageWord st.mem pd k := fun k hk => h pd k hpd (by omega) hmem
  have htable : ∀ {k pt}, i ≤ k → k < i + n → IsPage pt → pageWord st.mem pd k = pdeOf pt → pt ∉ l := by
    intro k pt hik hk hpt hpde
    refine hdisj pt (mem_pagesFrom hik hk ?_)
    unfold pagesAt
    rw [hpde, if_neg (by unfold pdeOf; omega), tableOf_pdeOf hpt]
    exact mem_append_right _ (mem_singleton_self pt)
  constructor
  · refine flatMap_range_congr fun k hk => pagesAt_congr (hword _ (by omega)) fun hne j hj => ?_
    obtain ⟨pt, hpt, hpde, -⟩ := (hentry (i + k) (by omega) (by omega)).resolve_left hne
    rw [hpde, tableOf_pdeOf hpt]
    exact h pt j hpt.aligned hj (htable (by omega) (by omega) hpt hpde)
  · intro k hik hk
    rcases hentry k hik (by omega) with hzero | ⟨pt, hpt, hpde, hlt⟩
    · exact .inl ((hword k hk).trans hzero)
    · refine .inr ⟨pt, hpt, (hword k hk).trans hpde, fun j hj => ?_⟩
      rw [h pt j hpt.aligned hj (htable hik hk hpt hpde)]
      exact hlt j hj

theorem destroyTables_returns (hpd : pd % 4096 = 0) :
    ∀ (n i : ℕ) (st : State), i + n = 768 → (∀ k, i ≤ k → k < 768 → EntryOk st.mem pd k) →
      (pagesFrom st.mem pd n i).Nodup → pd ∉ pagesFrom st.mem pd n i → st.used.Perm (pagesFrom st.mem pd n i ++ r) →
      Prog.Returns (destroyTables pd n i) st fun _ st' => st'.used.Perm r
  | 0, i, st, _, _, _, _, hused => .pure hused
  | n + 1, i, st, hn, hentry, hnodup, hmem, hused => by
    have hentry' : ∀ k, i + 1 ≤ k → k < 768 → EntryOk st.mem pd k := fun k hk => hentry k (by omega)
    rw [pagesFrom_succ] at hnodup hmem hused
    unfold destroyTables
    refine .bind_run (readWord_page_run pd i) ?_
    rcases hentry i le_rfl (by omega) with hzero | ⟨pt, hpt, hpde, hlt⟩
    · have hnil : pagesAt st.mem pd i = [] := if_pos hzero
      rw [hnil, nil_append] at hnodup hmem hused
      rw [hzero, if_neg (by decide)]
      exact destroyTables_returns hpd n (i + 1) st (by omega) hentry' hnodup hmem hused
    · have hpages : pagesAt st.mem pd i = framesOf st.mem pt ++ [pt] := by
        unfold pagesAt
        rw [hpde, if_neg (by unfold pdeOf; omega), tableOf_pdeOf hpt]
      have hframes : framesFrom st.mem pt 1024 0 = framesOf st.mem pt :=
        flatMap_range_congr fun k _ => by rw [Nat.zero_add]
      have hpresent : pdeOf pt &&& 0x1 ≠ 0 := by
        rw [and_one_ne_zero]
        have := hpt.aligned
        have := hpt.le
        unfold ptePresent pdeOf physBase at *
        simp only [beq_iff_eq]
        omega
      rw [hpages] at hnodup hmem hused
      -- the pages of this entry, and those that are left
      obtain ⟨hnodup1, hnodup2, hdisj⟩ := nodup_append'.1 hnodup
      obtain ⟨hnodupF, -, hdisjF⟩ := nodup_append'.1 hnodup1
      have hptF : pt ∉ framesOf st.mem pt := fun hm => hdisjF hm (mem_singleton_self pt)
      rw [hpde, if_pos hpresent]
      refine .bind_run (pdeGetPt_run hpt) ?_
      refine (destroyTable_returns (r := pt :: (pagesFrom st.mem pd n (i + 1) ++ r)) hpt.aligned 1024 0 st le_rfl
        (fun k _ hk => hlt k hk) ?_ ?_ ?_).bind ?_
      · rw [hframes]
        exact hnodupF
      · rw [hframes]
        exact hptF
      · rw [hframes]
        simpa only [append_assoc, cons_append, nil_append] using hused
      · rintro - st1 ⟨hused1, hsame1⟩
        rw [hframes] at hsame1
        refine (pallocFreePage_returns hpt.aligned hpt.le hused1).bind ?_
        rintro - st2 ⟨hused2, hsame2⟩
        have hsame := hsame1.trans hsame2
        obtain ⟨hpages', hentry''⟩ := pagesFrom_congr (n := n) hsame hpd (fun hm => hmem (mem_append_left _ hm))
          (by omega) hentry' fun p hp hp' => hdisj hp' hp
        refine destroyTables_returns hpd n (i + 1) st2 (by omega) (fun k hk hlt => hentry'' k hk (by omega)) ?_ ?_ ?_
        · rw [hpages']
          exact hnodup2
        · rw [hpages']
          exact fun hm => hmem (mem_append_right _ hm)
        · rw [hpages']
          exact hused2

/-- **`pagedir_destroy`** frees the pages of the page directory, and nothing else. -/
theorem Ok.destroy_returns {s : Dirs} {role : ℕ → Option Role} {base : List ℕ} (h : Ok s role) (hpd : pd ∈ s.dirs)
    (howns : Owns s.st pd [] base) : Prog.Returns (pagedirDestroy pd) s.st fun _ st' => st'.used.Perm base := by
  have hpage := (h.page (h.dir hpd)).2
  have hne : pd ≠ 0 := by
    have := hpage.le
    unfold physBase at this
    omega
  have hinit : pd ≠ s.st.initPageDir := by
    rintro rfl
    have := h.dir hpd
    rw [h.initRole] at this
    cases this
  have howned : owned s.st.mem pd = pagesFrom s.st.mem pd 768 0 ++ [pd] := by
    unfold owned
    refine congrArg (· ++ [pd]) (flatMap_range_congr fun k _ => ?_)
    rw [Nat.zero_add]
  have hentry : ∀ k, 0 ≤ k → k < 768 → EntryOk s.st.mem pd k := by
    intro k _ hk
    refine (h.entry hpd hk).imp_right fun ⟨pt, hrole, hpde⟩ => ⟨pt, (h.page hrole).2, hpde, fun j hj => h.word hrole hj⟩
  have hnodup := howns.nodup
  have hused := howns.used
  rw [howned, append_nil] at hnodup
  rw [howned, nil_append, append_assoc, singleton_append] at hused
  obtain ⟨hnodup, -, hdisj⟩ := nodup_append'.1 hnodup
  unfold pagedirDestroy
  rw [if_neg hne]
  refine .bind_run (run_get _) (.bind_run (assert_run hinit) ?_)
  refine (destroyTables_returns hpage.aligned 768 0 s.st rfl hentry hnodup
    (fun hm => hdisj hm (mem_singleton_self pd)) hused).bind ?_
  intro _ st' hused'
  exact (pallocFreePage_returns hpage.aligned hpage.le hused').mono fun _ _ h => h.1

end

/-! ## The pages that were taken and freed -/

/-- Since `st0`, the pages that were taken are those that were freed and those that are in use and were not. -/
def Balanced (st0 st : State) : Prop :=
  ∃ new gone, st.taken = new ++ st0.taken ∧ st.freed = gone ++ st0.freed ∧ (gone ++ st.used).Perm (new ++ st0.used)

section
variable {st0 st st' : State} {α : Type}

theorem Balanced.refl (st : State) : Balanced st st := ⟨[], [], rfl, rfl, List.Perm.refl _⟩

theorem Balanced.congr (h : Balanced st0 st) (ht : st'.taken = st.taken) (hf : st'.freed = st.freed) (hu : st'.used = st.used) :
    Balanced st0 st' := by
  unfold Balanced
  rwa [ht, hf, hu]

theorem Balanced.take (h : Balanced st0 st) (p : ℕ) : Balanced st0 (st.take p) := by
  obtain ⟨new, gone, ht, hf, hu⟩ := h
  exact ⟨p :: new, gone, congrArg (p :: ·) ht, hf, perm_middle.trans (hu.cons p)⟩

theorem Balanced.free {p : ℕ} (h : Balanced st0 st) (hp : p ∈ st.used) : Balanced st0 (st.free p) := by
  obtain ⟨new, gone, ht, hf, hu⟩ := h
  refine ⟨new, p :: gone, ht, congrArg (p :: ·) hf, ?_⟩
  exact (perm_middle.symm.trans ((perm_cons_erase hp).symm.append_left gone)).trans hu

theorem Balanced.perm (h : Balanced st0 st) (hused : st.used.Perm st0.used) :
    ∃ new gone, st.taken = new ++ st0.taken ∧ st.freed = gone ++ st0.freed ∧ gone.Perm new := by
  obtain ⟨new, gone, ht, hf, hu⟩ := h
  exact ⟨new, gone, ht, hf, (perm_append_right_iff _).1 ((hused.symm.append_left gone).trans hu)⟩

theorem balanced_writeBytes (a : ℕ) (l : List UInt8) : Prog.Preserves (Balanced st0) (writeBytes a l) :=
  preserves_modify fun _ h => h.congr rfl rfl rfl

theorem balanced_writeWord (a v : ℕ) : Prog.Preserves (Balanced st0) (writeWord a v) :=
  preserves_modify fun _ h => h.congr rfl rfl rfl

theorem balanced_get : Prog.Preserves (Balanced st0) (get : PgM State) := keeps_get.preserves

theorem balanced_pure (a : α) : Prog.Preserves (Balanced st0) (pure a : PgM α) := (keeps_pure a).preserves

theorem balanced_assert (P : Prop) [Decidable P] : Prog.Preserves (Balanced st0) (assert P) :=
  (keeps_pure ()).preserves.ite (keeps_throw _).preserves

theorem balanced_readWord (a : ℕ) : Prog.Preserves (Balanced st0) (readWord a) := balanced_get.bind fun _ => balanced_pure _

theorem balanced_pallocGetPage (user zero : Bool) : Prog.Preserves (Balanced st0) (pallocGetPage user zero) := by
  intro st a st' h hrun
  rcases pallocGetPage_run st user zero with ⟨-, hget⟩ | ⟨p, -, -, hget⟩
  · obtain ⟨-, rfl⟩ := ok_inj (hget.symm.trans hrun)
    exact h.congr rfl rfl rfl
  · obtain ⟨-, rfl⟩ := ok_inj (hget.symm.trans hrun)
    exact (h.take p).congr rfl rfl rfl

theorem balanced_pallocFreePage (p : ℕ) : Prog.Preserves (Balanced st0) (pallocFreePage p) := by
  intro st a st' h hrun
  unfold pallocFreePage at hrun
  rw [run_bind_get] at hrun
  split_ifs at hrun with hzero hp
  · obtain ⟨-, rfl⟩ := ok_inj hrun
    exact h
  · obtain ⟨-, rfl⟩ := ok_inj hrun
    exact (h.free hp).congr rfl rfl rfl
  · cases hrun

theorem balanced_ptov (a : ℕ) : Prog.Preserves (Balanced st0) (ptov a) := (balanced_assert _).bind fun _ => balanced_pure _

theorem balanced_vtop (a : ℕ) : Prog.Preserves (Balanced st0) (vtop a) := (balanced_assert _).bind fun _ => balanced_pure _

theorem balanced_entryOf (pd vaddr : ℕ) : Prog.Preserves (Balanced st0) (entryOf pd vaddr) :=
  (balanced_readWord _).bind fun _ => Prog.Preserves.bind ((balanced_assert _).bind fun _ => balanced_ptov _) fun _ =>
    balanced_pure _

theorem balanced_lookupPage (pd vaddr : ℕ) (create : Bool) : Prog.Preserves (Balanced st0) (lookupPage pd vaddr create) := by
  refine (balanced_assert _).bind fun _ => (balanced_assert _).bind fun _ => (balanced_readWord _).bind fun pde => ?_
  refine .ite (.ite ((balanced_pallocGetPage _ _).bind fun pt => ?_) (balanced_pure _)) (balanced_entryOf _ _)
  cases pt with
  | none => exact balanced_pure _
  | some pt =>
    refine Prog.Preserves.bind ((balanced_assert _).bind fun _ => (balanced_vtop _).bind fun _ => balanced_pure _) fun _ => ?_
    exact (balanced_writeWord _ _).bind fun _ => balanced_entryOf _ _

theorem balanced_pagedirCreate : Prog.Preserves (Balanced st0) pagedirCreate := by
  refine (balanced_pallocGetPage _ _).bind fun pd => ?_
  cases pd with
  | none => exact balanced_pure _
  | some pd => exact balanced_get.bind fun _ => (balanced_writeBytes _ _).bind fun _ => balanced_pure _

theorem balanced_pagedirSetPage (pd upage kpage : ℕ) (w : Bool) :
    Prog.Preserves (Balanced st0) (pagedirSetPage pd upage kpage w) := by
  refine Prog.Preserves.bind ?_ fun _ => (balanced_lookupPage _ _ _).bind fun pte => ?_
  · exact (balanced_assert _).bind fun _ => (balanced_assert _).bind fun _ => (balanced_assert _).bind fun _ =>
      (balanced_vtop _).bind fun _ => balanced_get.bind fun _ => (balanced_assert _).bind fun _ => balanced_assert _
  · cases pte with
    | none => exact balanced_pure _
    | some pte =>
      refine (balanced_readWord _).bind fun _ => (balanced_assert _).bind fun _ => Prog.Preserves.bind ?_ fun _ =>
        (balanced_writeWord _ _).bind fun _ => balanced_pure _
      exact Prog.Preserves.bind ((balanced_assert _).bind fun _ => (balanced_vtop _).bind fun _ => balanced_pure _) fun _ =>
        balanced_pure _

theorem balanced_pagedirDestroy (pd : ℕ) : Prog.Preserves (Balanced st0) (pagedirDestroy pd) := by
  have htable : ∀ pt n j, Prog.Preserves (Balanced st0) (destroyTable pt n j) := by
    intro pt n
    induction n with
    | zero => exact fun _ => balanced_pure ()
    | succ n ih =>
      exact fun j => (balanced_readWord _).bind fun _ =>
        .ite ((balanced_ptov _).bind fun _ => (balanced_pallocFreePage _).bind fun _ => ih _) (ih _)
  have htables : ∀ n i, Prog.Preserves (Balanced st0) (destroyTables pd n i) := by
    intro n
    induction n with
    | zero => exact fun _ => balanced_pure ()
    | succ n ih =>
      refine fun i => (balanced_readWord _).bind fun _ => .ite ?_ (ih _)
      exact Prog.Preserves.bind ((balanced_assert _).bind fun _ => balanced_ptov _) fun pt =>
        (htable pt _ _).bind fun _ => (balanced_pallocFreePage _).bind fun _ => ih _
  exact (balanced_pure ()).ite (balanced_get.bind fun _ => (balanced_assert _).bind fun _ => (htables _ _).bind fun _ =>
    balanced_pallocFreePage _)

end

end Pintos.Paging
