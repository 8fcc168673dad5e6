/-
  The pages of a page directory.

  A page directory owns itself, its page tables and the frames that they map: these are the pages
  that `pagedir_destroy` frees, here in the order in which it does.  `Owns` says whose the pages in
  use are.
-/
import Pintos.Lib.Lists
import Pintos.Memory.Tables

namespace Pintos.Paging

open Lib List

/-- The frames that a page table maps. -/
def framesOf (mem : ℕ → UInt8) (pt : ℕ) : List ℕ :=
  (List.range 1024).flatMap fun j => ((decode (pageWord mem pt j)).map Prod.fst).toList

/-- The pages of an entry of a page directory: the frames of its page table, and the page table. -/
def pagesAt (mem : ℕ → UInt8) (pd i : ℕ) : List ℕ :=
  if pageWord mem pd i = 0 then []
  else framesOf mem (tableOf (pageWord mem pd i)) ++ [tableOf (pageWord mem pd i)]

def owned (mem : ℕ → UInt8) (pd : ℕ) : List ℕ := (List.range 768).flatMap (pagesAt mem pd) ++ [pd]

section
variable {mem mem' : ℕ → UInt8} {s : Dirs} {role : ℕ → Option Role} {pd pt i j v : ℕ}

theorem framesOf_congr (h : ∀ j < 1024, pageWord mem' pt j = pageWord mem pt j) : framesOf mem' pt = framesOf mem pt :=
  flatMap_range_congr fun j hj => by rw [h j hj]

theorem framesOf_eq_nil (h : ∀ j < 1024, pageWord mem pt j = 0) : framesOf mem pt = [] := by
  refine flatMap_eq_nil_iff.2 fun j hj => ?_
  rw [h j (mem_range.1 hj)]
  rfl

theorem pagesAt_congr (hdir : pageWord mem' pd i = pageWord mem pd i)
    (htable : pageWord mem pd i ≠ 0 → ∀ j < 1024,
      pageWord mem' (tableOf (pageWord mem pd i)) j = pageWord mem (tableOf (pageWord mem pd i)) j) :
    pagesAt mem' pd i = pagesAt mem pd i := by
  unfold pagesAt
  rw [hdir]
  split_ifs with hzero
  · rfl
  · rw [framesOf_congr (htable hzero)]

theorem owned_congr (hdir : ∀ i < 768, pageWord mem' pd i = pageWord mem pd i)
    (htable : ∀ i < 768, pageWord mem pd i ≠ 0 → ∀ j < 1024,
      pageWord mem' (tableOf (pageWord mem pd i)) j = pageWord mem (tableOf (pageWord mem pd i)) j) :
    owned mem' pd = owned mem pd := by
  unfold owned
  rw [flatMap_range_congr fun i hi => pagesAt_congr (hdir i hi) (htable i hi)]

namespace Ok

theorem owned_store {p : ℕ} {b : List UInt8} (h : Ok s role) (hpd : pd ∈ s.dirs) (hp : p % 4096 = 0) (hrole : role p = none)
    (hb : b.length ≤ 4096) : owned (Lib.store s.st.mem p b) pd = owned s.st.mem pd := by
  have hword : ∀ {q r l}, role q = some r → l < 1024 →
      pageWord (Lib.store s.st.mem p b) q l = pageWord s.st.mem q l := by
    intro q r l hq hl
    refine pageWord_store hp (h.page hq).2.aligned hl (fun he => ?_) hb
    rw [he, hrole] at hq
    cases hq
  refine owned_congr (fun i hi => hword (h.dir hpd) (by omega)) fun i hi hne j hj => ?_
  obtain ⟨pt, hpt, -, -, htable⟩ := h.table hpd hi hne
  rw [htable]
  exact hword hpt hj

theorem owned_newTable (h : Ok s role) (hpd : pd ∈ s.dirs) (hi : i < 768) (hpt : IsPage pt) (hrole : role pt = none)
    (hempty : ∀ j < 1024, pageWord s.st.mem pt j = 0) (hzero : pageWord s.st.mem pd i = 0) :
    (owned (putWord s.st.mem (pd + 4 * i) (pdeOf pt)) pd).Perm (pt :: owned s.st.mem pd) := by
  have hdir := (h.page (h.dir hpd)).2
  have hlt := pdeOf_lt hpt
  have hword : ∀ {q l}, q % 4096 = 0 → l < 1024 → pageWord (putWord s.st.mem (pd + 4 * i) (pdeOf pt)) q l =
      if q = pd ∧ l = i then pdeOf pt else pageWord s.st.mem q l := fun hq hl =>
    pageWord_putWord hdir.aligned hq (by omega) hl (by omega)
  have hne : pt ≠ pd := by
    rintro rfl
    rw [h.dir hpd] at hrole
    cases hrole
  rw [owned, owned, ← cons_append]
  refine (perm_flatMap_grow hi (List.Perm.of_eq ?_) fun k hk hki => ?_).append_right [pd]
  · have hnew : framesOf (putWord s.st.mem (pd + 4 * i) (pdeOf pt)) pt = [] := by
      refine framesOf_eq_nil fun j hj => ?_
      rw [hword hpt.aligned hj, if_neg fun hn => hne hn.1, hempty j hj]
    have hpde : pageWord (putWord s.st.mem (pd + 4 * i) (pdeOf pt)) pd i = pdeOf pt := by
      rw [hword hdir.aligned (by omega), if_pos ⟨rfl, rfl⟩]
    unfold pagesAt
    rw [hpde, if_neg (by unfold pdeOf; omega), tableOf_pdeOf hpt, hnew, if_pos hzero, nil_append]
  · refine pagesAt_congr ?_ fun hk0 j hj => ?_
    · rw [hword hdir.aligned (by omega), if_neg fun hn => hki hn.2]
    · obtain ⟨pt', hpt', -, hpage', htable⟩ := h.table hpd hk hk0
      rw [htable, hword hpage'.aligned hj, if_neg]
      rintro ⟨rfl, -⟩
      exact ne_of_role (h.dir hpd) hpt' Role.noConfusion rfl

theorem owned_write {k : ℕ} {w : Bool} (h : Ok s role) (hpd : pd ∈ s.dirs) (hi : i < 768) (hj : j < 1024)
    (hrole : role pt = some (.table pd i)) (hpde : pageWord s.st.mem pd i = pdeOf pt) (hv : v < 2 ^ 30)
    (hold : decode (pageWord s.st.mem pt j) = none) (hnew : decode v = some (k, w)) :
    (owned (putWord s.st.mem (pt + 4 * j) v) pd).Perm (k :: owned s.st.mem pd) := by
  have hpt := (h.page hrole).2
  have hword : ∀ {q l}, q % 4096 = 0 → l < 1024 → pageWord (putWord s.st.mem (pt + 4 * j) v) q l =
      if q = pt ∧ l = j then v else pageWord s.st.mem q l := fun hq hl =>
    pageWord_putWord hpt.aligned hq hj hl (by omega)
  have hdir : ∀ {l}, l < 1024 → pageWord (putWord s.st.mem (pt + 4 * j) v) pd l = pageWord s.st.mem pd l := by
    intro l hl
    rw [hword (h.page (h.dir hpd)).2.aligned hl, if_neg fun hn => ne_of_role (h.dir hpd) hrole Role.noConfusion hn.1]
  have hframes : (framesOf (putWord s.st.mem (pt + 4 * j) v) pt).Perm (k :: framesOf s.st.mem pt) := by
    refine perm_flatMap_grow hj ?_ fun l hl hlj => ?_
    · rw [hword hpt.aligned hj, if_pos ⟨rfl, rfl⟩, hold, hnew]
      exact List.Perm.refl _
    · rw [hword hpt.aligned hl, if_neg fun hn => hlj hn.2]
  have hnz : pdeOf pt ≠ 0 := by unfold pdeOf; omega
  rw [owned, owned, ← cons_append]
  refine (perm_flatMap_grow hi ?_ fun l hl hli => ?_).append_right [pd]
  · unfold pagesAt
    rw [hdir (by omega), hpde, if_neg hnz, if_neg hnz, tableOf_pdeOf hpt]
    exact hframes.append_right [pt]
  · refine pagesAt_congr (hdir (by omega)) fun hl0 j' hj' => ?_
    obtain ⟨pt', hpt', -, hpage', htable⟩ := h.table hpd hl hl0
    rw [htable, hword hpage'.aligned hj', if_neg]
    rintro ⟨rfl, -⟩
    exact hli (Role.table.inj (Option.some.inj (hpt'.symm.trans hrole))).2

end Ok

theorem owned_of_empty (h : ∀ i < 768, pageWord mem pd i = 0) : owned mem pd = [pd] := by
  have hnil : (range 768).flatMap (pagesAt mem pd) = [] :=
    flatMap_eq_nil_iff.2 fun i hi => if_pos (h i (mem_range.1 hi))
  rw [owned, hnil, nil_append]

end

attribute [irreducible] owned

/-! ## Frames -/

/-- A page in use that is neither a directory nor a page table, and its bytes. -/
structure Frame (st : State) (role : ℕ → Option Role) (p : ℕ) (l : List UInt8) : Prop where
  aligned : p % 4096 = 0
  used : p ∈ st.used
  role_eq : role p = none
  bytes : slice st.mem p 4096 = l

/-- Frames stay frames, with the same bytes. -/
def KeepsFrames (st : State) (role : ℕ → Option Role) (st' : State) (role' : ℕ → Option Role) : Prop :=
  ∀ {p l}, Frame st role p l → Frame st' role' p l

section
variable {st st' : State} {role role' : ℕ → Option Role} {p q k v : ℕ} {l b : List UInt8} {mem : ℕ → UInt8}

theorem Frame.of_mem (h : Frame st role p l) (hmem : slice st'.mem p 4096 = slice st.mem p 4096) (hused : p ∈ st'.used)
    (hrole : role' p = none) : Frame st' role' p l :=
  ⟨h.aligned, hused, hrole, hmem.trans h.bytes⟩

theorem slice_store_page (hp : p % 4096 = 0) (hq : q % 4096 = 0) (hne : q ≠ p) (hb : b.length ≤ 4096) :
    slice (store mem p b) q 4096 = slice mem q 4096 :=
  slice_store_of_disjoint (by omega)

theorem slice_putWord_page (hp : p % 4096 = 0) (hq : q % 4096 = 0) (hne : q ≠ p) (hk : k < 1024) :
    slice (putWord mem (p + 4 * k) v) q 4096 = slice mem q 4096 :=
  slice_store_of_disjoint (by rw [length_ofWord]; omega)

end

/-! ## Pages in use -/

/-- What calls do not change: the allocator and the constants of the kernel. -/
structure State.SameEnv (st st' : State) : Prop where
  pager : st'.pager = st.pager
  initPageDir : st'.initPageDir = st.initPageDir
  initRamPages : st'.initRamPages = st.initRamPages

/-- The pages in use are those of the page directory, a few that whoever makes the calls holds, and
    others; the first are distinct. -/
structure Owns (st : State) (pd : ℕ) (held base : List ℕ) : Prop where
  used : st.used.Perm (owned st.mem pd ++ (held ++ base))
  nodup : (owned st.mem pd ++ held).Nodup

namespace Owns

variable {st st' : State} {pd p : ℕ} {held base : List ℕ}

theorem take (h : Owns st pd [] base) (hp : p ∉ st.used) (hused : st'.used = p :: st.used)
    (hmem : owned st'.mem pd = owned st.mem pd) : Owns st' pd [p] base where
  used := by
    rw [hused, hmem]
    exact (h.used.cons p).trans perm_middle.symm
  nodup := by
    rw [hmem]
    have hnodup := h.nodup
    rw [append_nil] at hnodup
    refine hnodup.append (nodup_singleton p) ?_
    rw [disjoint_singleton]
    exact fun hm => hp (h.used.mem_iff.2 (mem_append_left _ hm))

theorem addTable (h : Owns st pd held base) (hp : p ∉ st.used) (hused : st'.used = p :: st.used)
    (hmem : (owned st'.mem pd).Perm (p :: owned st.mem pd)) : Owns st' pd held base where
  used := by
    rw [hused]
    exact (h.used.cons p).trans (hmem.symm.append_right _)
  nodup := by
    refine ((hmem.append_right held).nodup_iff).2 (nodup_cons.2 ⟨fun hm => hp (h.used.mem_iff.2 ?_), h.nodup⟩)
    rw [← append_assoc]
    exact mem_append_left _ hm

theorem install (h : Owns st pd [p] base) (hused : st'.used = st.used)
    (hmem : (owned st'.mem pd).Perm (p :: owned st.mem pd)) : Owns st' pd [] base where
  used := by
    rw [hused]
    exact h.used.trans (perm_middle.trans (hmem.symm.append_right _))
  nodup := by
    rw [append_nil]
    exact (hmem.nodup_iff).2 (perm_append_comm.nodup_iff.1 h.nodup)

theorem congr (h : Owns st pd held base) (hused : st'.used = st.used) (hmem : owned st'.mem pd = owned st.mem pd) :
    Owns st' pd held base :=
  ⟨by rw [hused, hmem]; exact h.used, by rw [hmem]; exact h.nodup⟩

end Owns

end Pintos.Paging
