/-
  The calls of pagedir.c refine operations on maps.

  `DirCall` are the calls on the page directories that were made by `pagedir_create`, each run to
  completion, where the allocator may have no page for a page table or directory.
-/
import Pintos.Memory.KernelMap
import Pintos.Memory.Owned

namespace Pintos.Paging

open Lib Prog List Function

/-! ## Runs of the functions -/

section
variable {s : Dirs} {role : ℕ → Option Role} {pd upage kpage uaddr vaddr : ℕ}

theorem page_of_pallocGetPage {st st' : State} {user zero : Bool} {p : ℕ}
    (h : (pallocGetPage user zero).run st = .ok (some p, st')) : st.pager.page st.calls user st.used = some p := by
  unfold pallocGetPage at h
  rw [run_bind_get] at h
  cases hp : st.pager.page st.calls user st.used with
  | none =>
    rw [hp] at h
    cases (ok_inj h).1
  | some q =>
    rw [hp] at h
    cases zero <;> exact (ok_inj h).1

theorem index_lt (h : vaddr < physBase) : pdNo vaddr < 768 ∧ ptNo vaddr < 1024 ∧ vaddr / 4096 = 1024 * pdNo vaddr + ptNo vaddr := by
  unfold physBase at h
  unfold pdNo ptNo pgSize
  omega

variable {pt : ℕ}

theorem entryOf_run (st : State) (hpt : IsPage pt) (hpde : pageWord st.mem pd (pdNo vaddr) = pdeOf pt) :
    (entryOf pd vaddr).run st = .ok (some (pt + 4 * ptNo vaddr), st) := by
  unfold entryOf
  rw [run_bind_ok (readWord_page_run _ _), hpde, run_bind_ok (pdeGetPt_run hpt)]
  rfl

theorem Ok.lookup (h : Ok s role) (hpd : pd ∈ s.dirs) (hva : vaddr < physBase) :
    (pageWord s.st.mem pd (pdNo vaddr) = 0 ∧ (lookupPage pd vaddr false).run s.st = .ok (none, s.st)) ∨
    ∃ pt, role pt = some (.table pd (pdNo vaddr)) ∧ pageWord s.st.mem pd (pdNo vaddr) = pdeOf pt ∧
      ∀ create, (lookupPage pd vaddr create).run s.st = .ok (some (pt + 4 * ptNo vaddr), s.st) := by
  have hpage := (h.page (h.dir hpd)).2
  have hne : pd ≠ 0 := by
    have := hpage.le
    omega
  by_cases hzero : pageWord s.st.mem pd (pdNo vaddr) = 0
  · refine .inl ⟨hzero, ?_⟩
    unfold lookupPage
    rw [run_bind_ok (assert_run hne), run_bind_ok (assert_run nofun),
      run_bind_ok (readWord_page_run _ _), if_pos hzero]
    rfl
  · obtain ⟨pt, hrole, hpde, hpt, -⟩ := h.table hpd (index_lt hva).1 hzero
    refine .inr ⟨pt, hrole, hpde, fun create => ?_⟩
    unfold lookupPage
    rw [run_bind_ok (assert_run hne), run_bind_ok (assert_run fun _ => hva),
      run_bind_ok (readWord_page_run _ _), if_neg hzero]
    exact entryOf_run s.st hpt hpde

theorem Ok.called (h : Ok s role) : Ok ⟨s.st.called, s.dirs⟩ role :=
  ⟨h.page, h.initUsed, h.initPage, h.initRole, h.initEntry, h.dir, h.entry, h.word, h.kernel⟩

/-- `lookup_page` with `create` makes a page table, unless there is no page for it; the maps stay. -/
theorem Ok.lookup_create (h : Ok s role) (hpd : pd ∈ s.dirs) (hva : vaddr < physBase) :
    ((lookupPage pd vaddr true).run s.st = .ok (none, s.st.called) ∧
      s.st.pager.page s.st.calls false s.st.used = none) ∨
    ∃ st pt role', (lookupPage pd vaddr true).run s.st = .ok (some (pt + 4 * ptNo vaddr), st) ∧ Ok ⟨st, s.dirs⟩ role' ∧
      role' pt = some (.table pd (pdNo vaddr)) ∧ pageWord st.mem pd (pdNo vaddr) = pdeOf pt ∧ s.st.SameEnv st ∧
      (∀ pd' ∈ s.dirs, mapOf st.mem pd' = mapOf s.st.mem pd') ∧
      (∀ held base, Owns s.st pd held base → Owns st pd held base) ∧ KeepsFrames s.st role st role' := by
  rcases h.lookup hpd hva with ⟨hzero, -⟩ | ⟨pt, hrole, hpde, hrun⟩
  · have hpage := (h.page (h.dir hpd)).2
    have hne : pd ≠ 0 := by
      have := hpage.le
      omega
    have hstart : (lookupPage pd vaddr true).run s.st = (createTable pd vaddr).run s.st := by
      unfold lookupPage
      rw [run_bind_ok (assert_run hne), run_bind_ok (assert_run fun _ => hva),
        run_bind_ok (readWord_page_run _ _), if_pos hzero, if_pos rfl]
    unfold createTable at hstart
    rw [hstart]
    rcases pallocGetPage_run s.st false true with ⟨hnopage, hget⟩ | ⟨pt, hfresh, hpt, hget⟩
    · refine .inl ⟨?_, hnopage⟩
      rw [run_bind_ok hget]
      rfl
    · obtain ⟨hnone, hinit⟩ := h.of_fresh hfresh
      -- the new page is cleared, and then put into the directory
      set st1 := (s.st.called.take pt).withMem (Lib.store s.st.mem pt (replicate 4096 0)) with hst1
      obtain ⟨h1, hmaps1⟩ := h.store st1 hpt hnone hinit (by rw [length_replicate]) rfl
        (fun q _ hq => mem_cons_of_mem _ hq) rfl
      have hzero1 : pageWord st1.mem pd (pdNo vaddr) = 0 := by
        rw [← hzero]
        refine pageWord_store hpt.aligned hpage.aligned ?_ (fun he => ?_) (by rw [length_replicate])
        · exact lt_trans (index_lt hva).1 (by decide)
        · exact hfresh (he ▸ (h.page (h.dir hpd)).1)
      have hempty : ∀ j < 1024, pageWord st1.mem pt j = 0 := fun j hj => pageWord_zeros hj
      obtain ⟨h2, hmaps2⟩ := h1.newTable hpd (index_lt hva).1 hpt hnone mem_cons_self hinit hempty hzero1
      have hpde : pageWord (putWord st1.mem (pd + 4 * pdNo vaddr) (pdeOf pt)) pd (pdNo vaddr) = pdeOf pt :=
        getWord_putWord (lt_trans (pdeOf_lt hpt) (by decide))
      have howned : (owned (putWord st1.mem (pd + 4 * pdNo vaddr) (pdeOf pt)) pd).Perm (pt :: owned s.st.mem pd) := by
        rw [← h.owned_store hpd hpt.aligned hnone (show (replicate 4096 (0 : UInt8)).length ≤ 4096 by
          rw [length_replicate])]
        exact h1.owned_newTable hpd (index_lt hva).1 hpt hnone hempty hzero1
      refine .inr ⟨st1.withMem (putWord st1.mem (pd + 4 * pdNo vaddr) (pdeOf pt)), pt, _, ?_, h2, update_self ..,
        hpde, ⟨rfl, rfl, rfl⟩, fun pd' hpd' => (hmaps2 pd' hpd').trans (hmaps1 pd' hpd'),
        fun held base howns => howns.addTable hfresh rfl howned, fun {q l} hq => ?_⟩
      swap
      · -- the new page was not in use, and the directory is no frame
        have hqpt : q ≠ pt := fun he => hfresh (he ▸ hq.used)
        have hqpd : q ≠ pd := by
          rintro rfl
          cases (h.dir hpd).symm.trans hq.role_eq
        refine hq.of_mem ?_ (mem_cons_of_mem _ hq.used) ((update_of_ne hqpt ..).trans hq.role_eq)
        refine (slice_putWord_page hpage.aligned hq.aligned hqpd ?_).trans ?_
        · exact lt_trans (index_lt hva).1 (by decide)
        · exact slice_store_page hpt.aligned hq.aligned hqpt (by rw [length_replicate])
      rw [run_bind_ok hget]
      rw [if_pos rfl, ← hst1, run_bind_ok (pdeCreate_run hpt), run_bind_ok (writeWord_run _ _)]
      exact entryOf_run _ hpt hpde
  · exact .inr ⟨s.st, pt, role, hrun true, h, hrole, hpde, ⟨rfl, rfl, rfl⟩, fun _ _ => rfl, fun _ _ howns => howns, fun hq => hq⟩

theorem Ok.mapOf_of_table (h : Ok s role) (hva : vaddr < physBase) (hrole : role pt = some (.table pd (pdNo vaddr)))
    (hpde : pageWord s.st.mem pd (pdNo vaddr) = pdeOf pt) :
    mapOf s.st.mem pd (vaddr / 4096) = decode (pageWord s.st.mem pt (ptNo vaddr)) := by
  obtain ⟨h1, h2, h3⟩ := index_lt hva
  unfold mapOf
  rw [if_pos (by omega), show vaddr / 4096 / 1024 = pdNo vaddr by omega, show vaddr / 4096 % 1024 = ptNo vaddr by omega,
    hpde, if_neg (by unfold pdeOf; omega), tableOf_pdeOf (h.page hrole).2]

theorem mapOf_of_zero {mem : ℕ → UInt8} (hva : vaddr < physBase) (hzero : pageWord mem pd (pdNo vaddr) = 0) :
    mapOf mem pd (vaddr / 4096) = none := by
  obtain ⟨h1, h2, h3⟩ := index_lt hva
  unfold mapOf
  rw [if_pos (by omega), show vaddr / 4096 / 1024 = pdNo vaddr by omega, if_pos hzero]

/-- **`pagedir_get_page`** looks up the map. -/
theorem Ok.get_run (h : Ok s role) (hpd : pd ∈ s.dirs) (hva : uaddr < physBase) : (pagedirGetPage pd uaddr).run s.st =
    .ok ((mapOf s.st.mem pd (uaddr / 4096)).map fun f => f.1 + uaddr % 4096, s.st) := by
  unfold pagedirGetPage
  rw [run_bind_ok (assert_run hva)]
  rcases h.lookup hpd hva with ⟨hzero, hrun⟩ | ⟨pt, hrole, hpde, hrun⟩
  · rw [run_bind_ok hrun, mapOf_of_zero hva hzero]
    rfl
  · rw [run_bind_ok (hrun false), h.mapOf_of_table hva hrole hpde]
    rw [run_bind_ok (readWord_page_run _ _)]
    unfold decode
    by_cases hpresent : ptePresent (pageWord s.st.mem pt (ptNo uaddr)) = true
    · rw [if_pos (and_one_ne_zero.2 hpresent), if_pos hpresent, pteGetPage,
        run_bind_ok (ptov_mask_run (h.word hrole (index_lt hva).2.1))]
      rfl
    · rw [if_neg (and_one_ne_zero.not.2 hpresent), if_neg hpresent]
      rfl

theorem Ok.putPte {v : ℕ} (h : Ok s role) (hpd : pd ∈ s.dirs) (hva : vaddr < physBase)
    (hrole : role pt = some (.table pd (pdNo vaddr))) (hpde : pageWord s.st.mem pd (pdNo vaddr) = pdeOf pt) (hv : v < 2 ^ 30) :
    Ok ⟨s.st.withMem (putWord s.st.mem (pt + 4 * ptNo vaddr) v), s.dirs⟩ role ∧
      Dirs.maps ⟨s.st.withMem (putWord s.st.mem (pt + 4 * ptNo vaddr) v), s.dirs⟩ =
        update s.maps pd (some (update (mapOf s.st.mem pd) (vaddr / 4096) (decode v))) := by
  obtain ⟨h1, h2, h3⟩ := index_lt hva
  refine ⟨h.write h2 hrole hv, ?_⟩
  funext pd'
  rw [update_apply]
  unfold Dirs.maps
  dsimp only [State.withMem]
  by_cases hpd' : pd' ∈ s.dirs
  · rw [if_pos hpd', h.mapOf_write h1 h2 hrole hpde hv hpd', ← h3]
    split_ifs with heq
    · rfl
    · rfl
  · rw [if_neg hpd', if_neg (fun heq : pd' = pd => hpd' (by rw [heq]; exact hpd)), if_neg hpd']

theorem maps_of_mem (hpd : pd ∈ s.dirs) : s.maps pd = some (mapOf s.st.mem pd) := if_pos hpd

theorem maps_congr {st : State} (hmaps : ∀ pd ∈ s.dirs, mapOf st.mem pd = mapOf s.st.mem pd) :
    Dirs.maps ⟨st, s.dirs⟩ = s.maps := by
  funext pd
  unfold Dirs.maps
  split_ifs with hpd
  · rw [hmaps pd hpd]
  · rfl

/-- **`pagedir_set_page`** maps a page that is not mapped, unless there is no page for its page
    table. -/
theorem Ok.set_run (h : Ok s role) (hpd : pd ∈ s.dirs) (hua : upage % 4096 = 0) (hu : upage < physBase) (hk : IsPage kpage)
    (hram : (kpage - physBase) / 4096 < s.st.initRamPages) (hnone : mapOf s.st.mem pd (upage / 4096) = none) (w : Bool) :
    ((pagedirSetPage pd upage kpage w).run s.st = .ok (false, s.st.called) ∧
      s.st.pager.page s.st.calls false s.st.used = none) ∨
    ∃ st role', (pagedirSetPage pd upage kpage w).run s.st = .ok (true, st) ∧ Ok ⟨st, s.dirs⟩ role' ∧ s.st.SameEnv st ∧
      Dirs.maps ⟨st, s.dirs⟩ =
        update s.maps pd (some (update (mapOf s.st.mem pd) (upage / 4096) (some (kpage, w)))) ∧
      (∀ base, Owns s.st pd [kpage] base → Owns st pd [] base) ∧ KeepsFrames s.st role st role' := by
  have hinit : pd ≠ s.st.initPageDir := by
    rintro rfl
    have := h.dir hpd
    rw [h.initRole] at this
    cases this
  have hcheck : (checkSetPage pd upage kpage).run s.st = .ok ((), s.st) := by
    unfold checkSetPage
    rw [run_bind_ok (assert_run (show pgOfs upage = 0 from hua)),
      run_bind_ok (assert_run (show pgOfs kpage = 0 from hk.aligned)), run_bind_ok (assert_run hu),
      run_bind_ok (vtop_run hk.le), run_bind_get,
      run_bind_ok (assert_run (show (kpage - physBase) / 2 ^ 12 < s.st.initRamPages from hram))]
    exact assert_run hinit
  unfold pagedirSetPage
  rw [run_bind_ok hcheck]
  rcases h.lookup_create hpd hu with ⟨hrun, hnopage⟩ | ⟨st, pt, role', hrun, h', hrole, hpde, hsame, hmaps, howns, hkeeps⟩
  · refine .inl ⟨?_, hnopage⟩
    rw [run_bind_ok hrun]
    rfl
  · obtain ⟨h'', hmaps'⟩ := h'.putPte hpd hu hrole hpde (pteOf_lt hk w)
    have hdecode : decode (pageWord st.mem pt (ptNo upage)) = none := by
      rw [← h'.mapOf_of_table hu hrole hpde, hmaps pd hpd, hnone]
    have hold : pageWord st.mem pt (ptNo upage) &&& 0x1 = 0 := by
      by_contra hne
      unfold decode at hdecode
      rw [if_pos (and_one_ne_zero.1 hne)] at hdecode
      cases hdecode
    refine .inr ⟨_, role', ?_, h'', ⟨hsame.1, hsame.2, hsame.3⟩, ?_, fun base hbase => ?_, fun {q l} hq => ?_⟩
    · rw [run_bind_ok hrun]
      rw [run_bind_ok (readWord_page_run _ _), run_bind_ok (assert_run hold),
        run_bind_ok (pteCreateUser_run hk w), run_bind_ok (writeWord_run _ _)]
      rfl
    · rw [hmaps', maps_congr hmaps, decode_pteOf hk]
      rw [hmaps pd hpd]
    · exact (howns _ _ hbase).install rfl
        (h'.owned_write hpd (index_lt hu).1 (index_lt hu).2.1 hrole hpde (pteOf_lt hk w) hdecode (decode_pteOf hk w))
    · have hq' := hkeeps hq
      refine hq'.of_mem (slice_putWord_page (h'.page hrole).2.aligned hq.aligned ?_ (index_lt hu).2.1) hq'.used hq'.role_eq
      rintro rfl
      cases hrole.symm.trans hq'.role_eq

/-- **`pagedir_clear_page`** removes a page from the map. -/
theorem Ok.clear_run (h : Ok s role) (hpd : pd ∈ s.dirs) (hua : upage % 4096 = 0) (hu : upage < physBase) :
    ∃ st, (pagedirClearPage pd upage).run s.st = .ok ((), st) ∧ Ok ⟨st, s.dirs⟩ role ∧
      st.initRamPages = s.st.initRamPages ∧
      Dirs.maps ⟨st, s.dirs⟩ = update s.maps pd (some (update (mapOf s.st.mem pd) (upage / 4096) none)) := by
  have hsame : mapOf s.st.mem pd (upage / 4096) = none →
      update s.maps pd (some (update (mapOf s.st.mem pd) (upage / 4096) none)) = s.maps := by
    intro hnone
    rw [← hnone, update_eq_self, ← maps_of_mem hpd, update_eq_self]
  unfold pagedirClearPage
  rw [run_bind_ok (assert_run (show pgOfs upage = 0 from hua)), run_bind_ok (assert_run hu)]
  rcases h.lookup hpd hu with ⟨hzero, hrun⟩ | ⟨pt, hrole, hpde, hrun⟩
  · rw [run_bind_ok hrun, hsame (mapOf_of_zero hu hzero)]
    exact ⟨s.st, rfl, h, rfl, rfl⟩
  · rw [run_bind_ok (hrun false)]
    rw [run_bind_ok (readWord_page_run _ _)]
    have hword := h.word hrole (index_lt hu).2.1
    obtain ⟨heven, hle⟩ := clear_even (show pageWord s.st.mem pt (ptNo upage) < 2 ^ 32 by omega)
    by_cases hpresent : pageWord s.st.mem pt (ptNo upage) &&& 0x1 ≠ 0
    · obtain ⟨h', hmaps⟩ := h.putPte hpd hu hrole hpde (lt_of_le_of_lt hle hword)
      rw [if_pos hpresent]
      refine ⟨_, writeWord_run _ _, h', rfl, ?_⟩
      rw [hmaps, decode_eq_none heven]
    · rw [if_neg hpresent, hsame]
      · exact ⟨s.st, rfl, h, rfl, rfl⟩
      · rw [h.mapOf_of_table hu hrole hpde]
        unfold decode
        rw [if_neg (and_one_ne_zero.not.1 hpresent)]

/-- **`pagedir_set_dirty`** and **`pagedir_set_accessed`** change no translation. -/
theorem Ok.setFlag_run {flag mask : ℕ} (h : Ok s role) (hflag : IsFlag flag mask) (hpd : pd ∈ s.dirs) (hu : upage < physBase)
    (value : Bool) : ∃ st, (setFlag flag mask pd upage value).run s.st = .ok ((), st) ∧ Ok ⟨st, s.dirs⟩ role ∧
      st.initRamPages = s.st.initRamPages ∧ Dirs.maps ⟨st, s.dirs⟩ = s.maps := by
  unfold setFlag
  rcases h.lookup hpd hu with ⟨hzero, hrun⟩ | ⟨pt, hrole, hpde, hrun⟩
  · rw [run_bind_ok hrun]
    exact ⟨s.st, rfl, h, rfl, rfl⟩
  · rw [run_bind_ok (hrun false)]
    rw [run_bind_ok (readWord_page_run _ _)]
    have hword := h.word hrole (index_lt hu).2.1
    obtain ⟨hdiv, hmod⟩ := hflag.apply (show pageWord s.st.mem pt (ptNo upage) < 2 ^ 32 by omega) value
    obtain ⟨h', hmaps⟩ := h.putPte hpd hu hrole hpde
      (v := if value then pageWord s.st.mem pt (ptNo upage) ||| flag else pageWord s.st.mem pt (ptNo upage) &&& mask) (by omega)
    refine ⟨_, writeWord_run _ _, h', rfl, ?_⟩
    rw [hmaps, decode_congr hdiv hmod, ← h.mapOf_of_table hu hrole hpde, update_eq_self, ← maps_of_mem hpd,
      update_eq_self]

/-- **`pagedir_create`** makes a page directory without user pages, unless there is no page for it. -/
theorem Ok.create_run (h : Ok s role) :
    pagedirCreate.run s.st = .ok (none, s.st.called) ∨
    ∃ st pd role', pagedirCreate.run s.st = .ok (some pd, st) ∧ Ok ⟨st, pd :: s.dirs⟩ role' ∧ s.st.SameEnv st ∧ pd ∉ s.dirs ∧
      Dirs.maps ⟨st, pd :: s.dirs⟩ = update s.maps pd (some fun _ => none) ∧ Owns st pd [] s.st.used := by
  unfold pagedirCreate
  rcases pallocGetPage_run s.st false false with ⟨-, hget⟩ | ⟨pd, hfresh, hpage, hget⟩
  · refine .inl ?_
    rw [run_bind_ok hget]
    rfl
  · obtain ⟨hnone, hinit⟩ := h.of_fresh hfresh
    have hnot : pd ∉ s.dirs := fun hpd => hfresh (h.page (h.dir hpd)).1
    set st1 := (s.st.called.take pd).withMem (Lib.store s.st.mem pd (slice s.st.mem s.st.initPageDir 4096)) with hst1
    obtain ⟨h1, hmaps1⟩ := h.store st1 hpage hnone hinit (by rw [length_slice]) rfl
      (fun q _ hq => mem_cons_of_mem _ hq) rfl
    have hcopy : ∀ i < 1024, pageWord st1.mem pd i = pageWord st1.mem st1.initPageDir i := by
      intro i hi
      refine (pageWord_copy hi).trans (pageWord_store hpage.aligned h.initPage.aligned hi hinit.symm ?_).symm
      rw [length_slice]
    obtain ⟨h2, hempty⟩ := h1.newDir hpage hnone mem_cons_self hinit hcopy
    have howned : owned st1.mem pd = [pd] :=
      owned_of_empty fun i hi => (hcopy i (by omega)).trans (h1.initEntry i hi)
    refine .inr ⟨st1, pd, _, ?_, h2, ⟨rfl, rfl, rfl⟩, hnot, ?_, ⟨?_, ?_⟩⟩
    · rw [run_bind_ok hget]
      rfl
    · funext pd'
      rw [update_apply]
      unfold Dirs.maps
      by_cases heq : pd' = pd
      · rw [if_pos heq, if_pos (heq ▸ mem_cons_self), heq, hempty]
      · rw [if_neg heq]
        by_cases hpd' : pd' ∈ s.dirs
        · rw [if_pos (mem_cons_of_mem _ hpd'), if_pos hpd', hmaps1 pd' hpd']
        · rw [if_neg hpd', if_neg (fun hm => (mem_cons.1 hm).elim heq hpd')]
    · rw [howned]
      exact List.Perm.refl _
    · rw [howned]
      exact nodup_singleton pd

end

/-! ## `paging_init` -/

section
variable {st st' : State} {pd pt : ℕ}

theorem ok_pagingInit {start end_ : ℕ} (hrun : (pagingInit start end_).run st = .ok ((), st')) :
    Ok ⟨st', []⟩ fun _ => none := by
  obtain ⟨pd, tables, h⟩ := (pagingInit_kernel start end_ (pages_le_of_pagingInit hrun)).ok hrun
  refine ⟨nofun, ?_, ?_, rfl, fun i hi => ?_, nofun, nofun, nofun, nofun⟩
  · exact h.init ▸ h.dir.1
  · exact h.init ▸ h.dir.2
  · change pageWord st'.mem st'.initPageDir i = 0
    rw [h.init, h.pde i (by omega), if_neg (by omega)]

end

/-! ## Calls -/

inductive DirCall where
  | create
  | set (pd upage kpage : ℕ) (writable : Bool)
  | clear (pd upage : ℕ)
  | setDirty (pd vpage : ℕ) (dirty : Bool)
  | setAccessed (pd vpage : ℕ) (accessed : Bool)
  | get (pd uaddr : ℕ)

inductive DirResult where
  | page (p : Option ℕ)
  | bool (b : Bool)
  | done

def DirCall.exec : DirCall → PgM DirResult
  | create => do return .page (← pagedirCreate)
  | set pd upage kpage writable => do return .bool (← pagedirSetPage pd upage kpage writable)
  | clear pd upage => do pagedirClearPage pd upage; return .done
  | setDirty pd vpage dirty => do pagedirSetDirty pd vpage dirty; return .done
  | setAccessed pd vpage accessed => do pagedirSetAccessed pd vpage accessed; return .done
  | get pd uaddr => do return .page (← pagedirGetPage pd uaddr)

/-- The calls that may be made: on page directories that were made, with pages that are aligned and in
    the user's address space; `pagedir_set_page` for a page that is not mapped and a frame in memory. -/
def DirCall.Enabled (s : Dirs) : DirCall → Prop
  | create => True
  | set pd upage kpage _ => pd ∈ s.dirs ∧ upage % 4096 = 0 ∧ upage < physBase ∧
    (∃ st, (pagedirGetPage pd upage).run s.st = .ok (none, st)) ∧ IsPage kpage ∧
    (kpage - physBase) / 4096 < s.st.initRamPages
  | clear pd upage => pd ∈ s.dirs ∧ upage % 4096 = 0 ∧ upage < physBase
  | setDirty pd vpage _ | setAccessed pd vpage _ => pd ∈ s.dirs ∧ vpage < physBase
  | get pd uaddr => pd ∈ s.dirs ∧ uaddr < physBase

/-- The page directories after a call. -/
def DirCall.made (dirs : List ℕ) : DirCall → DirResult → List ℕ
  | create, .page (some pd) => pd :: dirs
  | _, _ => dirs

/-- One call that completes, and its result. -/
def Dirs.Step (s : Dirs) (l : DirCall × DirResult) (t : Dirs) : Prop :=
  l.1.Enabled s ∧ l.1.exec.run s.st = .ok (l.2, t.st) ∧ t.dirs = l.1.made s.dirs l.2

/-- The maps of the page directories that were made. -/
abbrev Maps := ℕ → Option PageMap

/-- The calls on maps: a page is mapped, removed or looked up. -/
inductive Maps.Step : Maps → DirCall × DirResult → Maps → Prop
  | create {a pd} : a pd = none → Step a (.create, .page (some pd)) (update a pd (some fun _ => none))
  | createFail {a} : Step a (.create, .page none) a
  | set {a m pd upage kpage w} : a pd = some m → m (upage / 4096) = none →
    Step a (.set pd upage kpage w, .bool true)
      (update a pd (some (update m (upage / 4096) (some (kpage, w)))))
  | setFail {a pd upage kpage w} : Step a (.set pd upage kpage w, .bool false) a
  | clear {a m pd upage} : a pd = some m →
    Step a (.clear pd upage, .done) (update a pd (some (update m (upage / 4096) none)))
  | setDirty {a pd vpage b} : Step a (.setDirty pd vpage b, .done) a
  | setAccessed {a pd vpage b} : Step a (.setAccessed pd vpage b, .done) a
  | get {a m pd uaddr} : a pd = some m →
    Step a (.get pd uaddr, .page ((m (uaddr / 4096)).map fun f => f.1 + uaddr % 4096)) a

/-- A state and the maps of its page directories. -/
def Rel (s : Dirs) (a : Maps) : Prop := (∃ role, Ok s role) ∧ s.maps = a

section
variable {s t : Dirs} {a : Maps} {c : DirCall}

/-- **Every call completes and is a step on the maps.** -/
theorem Rel.call (h : Rel s a) (he : c.Enabled s) : ∃ r t b, s.Step (c, r) t ∧ a.Step (c, r) b ∧ Rel t b := by
  obtain ⟨⟨role, hok⟩, rfl⟩ := h
  cases c with
  | create =>
    rcases hok.create_run with hrun | ⟨st, pd, role', hrun, hok', -, hnot, hmaps, -⟩
    · exact ⟨.page none, ⟨s.st.called, s.dirs⟩, _, ⟨trivial, (run_bind_ok hrun).trans rfl, rfl⟩, .createFail,
        ⟨role, hok.called⟩, rfl⟩
    · exact ⟨.page (some pd), ⟨st, pd :: s.dirs⟩, _, ⟨trivial, (run_bind_ok hrun).trans rfl, rfl⟩, .create (if_neg hnot),
        ⟨role', hok'⟩, hmaps⟩
  | set pd upage kpage w =>
    obtain ⟨hpd, hua, hu, ⟨st, hget⟩, hk, hram⟩ := he
    have hnone : mapOf s.st.mem pd (upage / 4096) = none := by
      rw [hok.get_run hpd hu] at hget
      exact Option.map_eq_none_iff.1 (ok_inj hget).1
    rcases hok.set_run hpd hua hu hk hram hnone w with ⟨hrun, -⟩ | ⟨st', role', hrun, hok', -, hmaps, -⟩
    · exact ⟨.bool false, ⟨s.st.called, s.dirs⟩, _, ⟨⟨hpd, hua, hu, ⟨st, hget⟩, hk, hram⟩, (run_bind_ok hrun).trans rfl,
        rfl⟩, .setFail, ⟨role, hok.called⟩, rfl⟩
    · exact ⟨.bool true, ⟨st', s.dirs⟩, _, ⟨⟨hpd, hua, hu, ⟨st, hget⟩, hk, hram⟩, (run_bind_ok hrun).trans rfl, rfl⟩,
        .set (maps_of_mem hpd) hnone, ⟨role', hok'⟩, hmaps⟩
  | clear pd upage =>
    obtain ⟨st, hrun, hok', -, hmaps⟩ := hok.clear_run he.1 he.2.1 he.2.2
    exact ⟨.done, ⟨st, s.dirs⟩, _, ⟨he, (run_bind_ok hrun).trans rfl, rfl⟩, .clear (maps_of_mem he.1), ⟨role, hok'⟩, hmaps⟩
  | setDirty pd vpage b =>
    obtain ⟨st, hrun, hok', -, hmaps⟩ := hok.setFlag_run isFlag_dirty he.1 he.2 b
    exact ⟨.done, ⟨st, s.dirs⟩, _, ⟨he, (run_bind_ok hrun).trans rfl, rfl⟩, .setDirty, ⟨role, hok'⟩, hmaps⟩
  | setAccessed pd vpage b =>
    obtain ⟨st, hrun, hok', -, hmaps⟩ := hok.setFlag_run isFlag_accessed he.1 he.2 b
    exact ⟨.done, ⟨st, s.dirs⟩, _, ⟨he, (run_bind_ok hrun).trans rfl, rfl⟩, .setAccessed, ⟨role, hok'⟩, hmaps⟩
  | get pd uaddr =>
    exact ⟨_, s, _, ⟨he, (run_bind_ok (hok.get_run he.1 he.2)).trans rfl, rfl⟩, .get (maps_of_mem he.1), ⟨role, hok⟩, rfl⟩

theorem rel_simulates : Simulates Dirs.Step Maps.Step Rel := by
  rintro s a ⟨c, r⟩ t hrel ⟨he, hrun, hdirs⟩
  obtain ⟨r', t', b, ⟨-, hrun', hdirs'⟩, hb, hrel'⟩ := hrel.call he
  dsimp only at hrun' hdirs'
  obtain ⟨rfl, hst⟩ := ok_inj (hrun'.symm.trans hrun)
  obtain rfl : t' = t := by
    cases t'
    dsimp only at hst hdirs hdirs'
    rw [hst, hdirs', ← hdirs]
  exact ⟨b, hb, hrel'⟩

/-- **Page directories represent maps.**  After `paging_init`, with any allocator, every run of calls
    is a run on the maps, with the same results; the maps are what `pagedir_get_page` sees, the
    kernel's half of each page directory is that of `init_page_dir`, and every call completes. -/
theorem pagedir_refines_maps {st st' : State} {start end_ : ℕ} (hinit : (pagingInit start end_).run st = .ok ((), st')) :
    ∀ calls s, Runs Dirs.Step ⟨st', []⟩ calls s →
      (∃ a, Runs Maps.Step (fun _ => none) calls a ∧ (∀ pd, (a pd).isSome ↔ pd ∈ s.dirs) ∧
        ∀ pd m, a pd = some m → m = mapOf s.st.mem pd ∧ ∀ uaddr < physBase,
          (pagedirGetPage pd uaddr).run s.st = .ok ((m (uaddr / 4096)).map fun f => f.1 + uaddr % 4096, s.st)) ∧
      (∀ pd ∈ s.dirs, ∀ i, 768 ≤ i → i < 1024 → pageWord s.st.mem pd i = pageWord s.st.mem s.st.initPageDir i) ∧
      ∀ call : DirCall, call.Enabled s → ∃ r t, s.Step (call, r) t := by
  intro calls s hruns
  have hrel0 : Rel ⟨st', []⟩ fun _ => none := ⟨⟨_, ok_pagingInit hinit⟩, rfl⟩
  obtain ⟨a, hruns', hrel⟩ := hruns.simulate rel_simulates hrel0
  obtain ⟨⟨role, hok⟩, rfl⟩ := id hrel
  refine ⟨⟨s.maps, hruns', fun pd => ?_, fun pd m hm => ?_⟩, fun pd hpd i hle hlt => hok.kernel hpd hle hlt, fun call he => ?_⟩
  · unfold Dirs.maps
    split_ifs with hpd
    · exact iff_of_true rfl hpd
    · exact iff_of_false nofun hpd
  · unfold Dirs.maps at hm
    split_ifs at hm with hpd
    cases hm
    exact ⟨rfl, fun uaddr hu => hok.get_run hpd hu⟩
  · obtain ⟨r, t, -, hstep, -⟩ := hrel.call he
    exact ⟨r, t, hstep⟩

/-- A page directory is made and a frame mapped in it, writable; `pagedir_get_page` then finds the
    frame. -/
theorem pagedir_refines_maps_mapped : ∃ st' s pd, (pagingInit 0 0).run onePage = .ok ((), st') ∧
    Runs Dirs.Step ⟨st', []⟩ [(.create, .page (some pd)), (.set pd 0x8048000 physBase true, .bool true)] s ∧
    ∃ a m, Runs Maps.Step (fun _ => none) [(.create, .page (some pd)), (.set pd 0x8048000 physBase true, .bool true)] a ∧
      a pd = some m ∧
      (pagedirGetPage pd 0x8048123).run s.st = .ok ((m 0x8048).map fun f => f.1 + 0x123, s.st) := by
  obtain ⟨st', hinit, hpager, hcalls, hused, hram⟩ := pagingInit_onePage
  have hok := ok_pagingInit hinit
  have hframe : IsPage physBase := ⟨by decide, by decide, by decide⟩
  obtain ⟨pd, hpd⟩ : ∃ pd, pd = physBase + 4096 * 3 := ⟨_, rfl⟩
  have hpage : st'.pager.page st'.calls false st'.used = some pd := by
    rw [hpager, hcalls, hused, hpd]
    exact pagesInOrder_page (by decide) (by decide)
  -- the page for the directory, and then the one for its page table
  have hget : (pallocGetPage false false).run st' = .ok (some pd, st'.called.take pd) := by
    unfold pallocGetPage
    rw [run_bind_get, hpage]
    rfl
  set st1 := (st'.called.take pd).withMem (Lib.store st'.mem pd (slice st'.mem st'.initPageDir 4096)) with hst1
  have hcreate : pagedirCreate.run st' = .ok (some pd, st1) := by
    unfold pagedirCreate
    rw [run_bind_ok hget]
    rfl
  rcases hok.create_run with hrun | ⟨_, _, role, hrun, hok1, -, -, hmaps, -⟩
  · cases hrun.symm.trans hcreate
  obtain ⟨hsome, rfl⟩ := ok_inj (hrun.symm.trans hcreate)
  rw [Option.some.inj hsome] at hok1 hmaps
  have hnone : mapOf st1.mem pd (0x8048000 / 4096) = none := by
    have := congrFun hmaps pd
    rw [update_self] at this
    exact congrFun (Option.some.inj ((maps_of_mem mem_cons_self).symm.trans this)) _
  have hlt : (physBase - physBase) / 4096 < st1.initRamPages := by
    change _ < st'.initRamPages
    rw [hram]
    decide
  rcases hok1.set_run mem_cons_self (by decide : 0x8048000 % 4096 = 0) (by decide) hframe hlt hnone true with
    ⟨-, hno⟩ | ⟨st2, role', hset, -⟩
  · change st'.pager.page (st'.calls + 1) false (pd :: st'.used) = none at hno
    rw [hpager, hcalls, hused, hpd, pagesInOrder_page (by decide) (by decide)] at hno
    cases hno
  · have hstep1 : Dirs.Step ⟨st', []⟩ (.create, .page (some pd)) ⟨st1, [pd]⟩ :=
      ⟨trivial, (run_bind_ok hcreate).trans rfl, rfl⟩
    have hstep2 : Dirs.Step ⟨st1, [pd]⟩ (.set pd 0x8048000 physBase true, .bool true) ⟨st2, [pd]⟩ := by
      refine ⟨⟨mem_cons_self, by decide, by decide, ⟨st1, ?_⟩, hframe, hlt⟩, (run_bind_ok hset).trans rfl, rfl⟩
      rw [hok1.get_run mem_cons_self (by decide), hnone]
      rfl
    have hruns := Runs.cons hstep1 (.cons hstep2 .nil)
    obtain ⟨⟨a, ha, hdom, hmap⟩, -, -⟩ := pagedir_refines_maps hinit _ _ hruns
    obtain ⟨m, hm⟩ := Option.isSome_iff_exists.1 ((hdom pd).2 mem_cons_self)
    exact ⟨st', _, pd, hinit, hruns, a, m, ha, hm, (hmap pd m hm).2 0x8048123 (by decide)⟩

end

end Pintos.Paging
