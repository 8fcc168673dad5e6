/-
  Page directories are maps.

  A page directory and its page tables represent a map from the pages of the user's address space to frames.
-/
import Pintos.Lib.Simulation
import Pintos.Memory.Pagedir

namespace Pintos.Paging

open Lib Prog Function List

/-! ## Pages as arrays of words -/

/-- The `k`-th word of the page `p`. -/
def pageWord (mem : ℕ → UInt8) (p k : ℕ) : ℕ := getWord mem (p + 4 * k)

section
variable {mem : ℕ → UInt8} {p q k l v : ℕ}

theorem pageWord_store (hp : p % 4096 = 0) (hq : q % 4096 = 0) (hl : l < 1024) (hne : q ≠ p) {b : List UInt8}
    (hb : b.length ≤ 4096) : pageWord (store mem p b) q l = pageWord mem q l :=
  getWord_store_of_disjoint (by omega)

theorem pageWord_putWord (hp : p % 4096 = 0) (hq : q % 4096 = 0) (hk : k < 1024) (hl : l < 1024) (hv : v < 2 ^ 32) :
    pageWord (putWord mem (p + 4 * k) v) q l = if q = p ∧ l = k then v else pageWord mem q l := by
  unfold pageWord
  split_ifs with h
  · rw [h.1, h.2, getWord_putWord hv]
  · exact getWord_putWord_of_disjoint (by omega)

theorem pageWord_zeros (hl : l < 1024) : pageWord (store mem p (List.replicate 4096 0)) p l = 0 := by
  have hzero : pageWord (store mem p (replicate 4096 0)) p l = getWord (fun _ => 0) 0 := by
    refine getWord_congr fun i hi => ?_
    rw [Nat.add_assoc, store_apply_add (by rw [length_replicate]; omega), getElem_replicate]
  rw [hzero]
  rfl

theorem pageWord_copy (hl : l < 1024) : pageWord (store mem p (slice mem q 4096)) p l = pageWord mem q l := by
  refine getWord_congr fun i hi => ?_
  rw [Nat.add_assoc, store_apply_add (by rw [length_slice]; omega)]
  refine Option.some.inj ?_
  rw [← getElem?_eq_getElem, getElem?_slice, if_pos (by omega), Nat.add_assoc]

end

/-! ## Entries -/

/-- The entry of a page directory that points to the page table `pt`. -/
def pdeOf (pt : ℕ) : ℕ := pt - physBase + 7

/-- The page table that an entry points to. -/
def tableOf (pde : ℕ) : ℕ := physBase + pde / 4096 * 4096

/-- The frame and whether it is writable, for an entry of a page table that is present. -/
def decode (pte : ℕ) : Option (ℕ × Bool) :=
  if ptePresent pte then some (tableOf pte, pte / 2 % 2 == 1) else none

section
variable {p v : ℕ} {s : State}

theorem tableOf_pdeOf (h : IsPage p) : tableOf (pdeOf p) = p := by
  obtain ⟨h1, h2, -⟩ := h
  unfold tableOf pdeOf physBase at *
  omega

theorem pdeOf_lt (h : IsPage p) : pdeOf p < 2 ^ 30 := by
  obtain ⟨h1, h2, h3⟩ := h
  unfold pdeOf physBase at *
  omega

theorem vtop_run (h : physBase ≤ v) : (vtop v).run s = .ok (v - physBase, s) := by
  unfold vtop assert
  rw [if_pos h]
  rfl

theorem assert_run {P : Prop} [Decidable P] (h : P) : (assert P).run s = .ok ((), s) := by
  unfold assert
  rw [if_pos h]
  rfl

theorem readWord_page_run (p k : ℕ) : (readWord (p + 4 * k)).run s = .ok (pageWord s.mem p k, s) := rfl

theorem writeWord_run (a v : ℕ) : (writeWord a v).run s = .ok ((), s.withMem (putWord s.mem a v)) := rfl

theorem ptov_mask_run (h : v < 2 ^ 30) : (ptov (v &&& 0xfffff000)).run s = .ok (tableOf v, s) := by
  have hmask : v &&& 0xfffff000 = v / 4096 * 4096 := and_high (n := 12) (m := 32) (by decide) (by omega)
  unfold ptov tableOf addr
  rw [hmask, run_bind_ok (assert_run (by unfold physBase; omega)), Nat.mod_eq_of_lt (by unfold physBase; omega),
    Nat.add_comm]
  rfl

theorem and_one_ne_zero : v &&& 0x1 ≠ 0 ↔ ptePresent v = true := by
  rw [Nat.and_one_is_mod, ptePresent, beq_iff_eq]
  omega

theorem pdeCreate_run (h : IsPage p) : (pdeCreate p).run s = .ok (pdeOf p, s) := by
  have hofs : pgOfs p = 0 := h.aligned
  have hor : (p - physBase) ||| 0x4 ||| 0x1 ||| 0x2 = pdeOf p := by
    have h1 := h.aligned
    rw [Nat.or_assoc, Nat.or_assoc]
    exact or_eq_add (n := 12) (by unfold physBase; omega) (by decide)
  unfold pdeCreate
  rw [run_bind_ok (assert_run hofs), run_bind_ok (vtop_run h.le), hor]
  rfl

theorem pdeGetPt_run (h : IsPage p) : (pdeGetPt (pdeOf p)).run s = .ok (p, s) := by
  have hp : pdeOf p &&& 0x1 ≠ 0 := by
    obtain ⟨h1, h2, h3⟩ := h
    rw [Nat.and_one_is_mod]
    unfold pdeOf physBase at *
    omega
  unfold pdeGetPt
  rw [run_bind_ok (assert_run hp), ptov_mask_run (pdeOf_lt h), tableOf_pdeOf h]

/-- The entry that `pte_create_user` makes. -/
def pteOf (p : ℕ) (writable : Bool) : ℕ := p - physBase + if writable then 7 else 5

theorem pteOf_lt (h : IsPage p) (w : Bool) : pteOf p w < 2 ^ 30 := by
  obtain ⟨h1, h2, h3⟩ := h
  unfold pteOf physBase at *
  split_ifs <;> omega

theorem decode_pteOf (h : IsPage p) (w : Bool) : decode (pteOf p w) = some (p, w) := by
  obtain ⟨h1, h2, h3⟩ := h
  have hpresent : ptePresent (pteOf p w) = true := by
    unfold ptePresent pteOf physBase at *
    rw [beq_iff_eq]
    split_ifs <;> omega
  have htable : tableOf (pteOf p w) = p := by
    unfold tableOf pteOf physBase at *
    split_ifs <;> omega
  have hwrite : (pteOf p w / 2 % 2 == 1) = w := by
    rw [Bool.eq_iff_iff, beq_iff_eq]
    unfold pteOf physBase at *
    cases w
    · simp only [Bool.false_eq_true, if_false, iff_false]
      omega
    · simp only [if_true, iff_true]
      omega
  unfold decode
  rw [if_pos hpresent, htable, hwrite]

theorem pteCreateUser_run (h : IsPage p) (w : Bool) : (pteCreateUser p w).run s = .ok (pteOf p w, s) := by
  have hofs : pgOfs p = 0 := h.aligned
  have hor : (p - physBase) ||| 0x1 ||| (if w then 0x2 else 0) ||| 0x4 = pteOf p w := by
    have h1 := h.aligned
    have hmod : (p - physBase) % 2 ^ 12 = 0 := by unfold physBase; omega
    rw [Nat.or_assoc, Nat.or_assoc, or_eq_add hmod (by cases w <;> decide)]
    cases w <;> rfl
  unfold pteCreateUser pteCreateKernel
  rw [run_bind_ok ((run_bind_ok (assert_run hofs)).trans (run_bind_ok (vtop_run h.le))),
    run_pure, hor]

theorem decode_eq_none (h : v % 2 = 0) : decode v = none := by
  unfold decode ptePresent
  rw [if_neg (by rw [beq_iff_eq]; omega)]

theorem decode_congr {w : ℕ} (h1 : v / 4096 = w / 4096) (h2 : v % 4 = w % 4) : decode v = decode w := by
  have hpresent : ptePresent v = ptePresent w := by
    unfold ptePresent
    rw [show v % 2 = w % 2 by omega]
  unfold decode tableOf
  rw [hpresent, h1, show v / 2 % 2 = w / 2 % 2 by omega]

theorem clear_even (h : v < 2 ^ 32) : (v &&& 0xfffffffe) % 2 = 0 ∧ v &&& 0xfffffffe ≤ v := by
  have hmask : v &&& 0xfffffffe = v / 2 * 2 := and_high (n := 1) (by decide) h
  omega

/-- The flags of `pagedir_set_dirty` and `pagedir_set_accessed`. -/
structure IsFlag (flag mask : ℕ) : Prop where
  flag_div : flag / 4096 = 0
  flag_mod : flag % 4 = 0
  mask_div : mask / 4096 = 2 ^ 20 - 1
  mask_mod : mask % 4 = 3

theorem isFlag_dirty : IsFlag 0x40 0xffffffbf := ⟨by decide, by decide, by decide, by decide⟩

theorem isFlag_accessed : IsFlag 0x20 0xffffffdf := ⟨by decide, by decide, by decide, by decide⟩

theorem IsFlag.apply {flag mask : ℕ} (hf : IsFlag flag mask) (h : v < 2 ^ 32) (b : Bool) :
    (if b then v ||| flag else v &&& mask) / 4096 = v / 4096 ∧ (if b then v ||| flag else v &&& mask) % 4 = v % 4 := by
  have hdiv : ∀ x, x / 4096 = x / 2 ^ 12 := fun _ => rfl
  have hmod : ∀ x, x % 4 = x % 2 ^ 2 := fun _ => rfl
  cases b
  · simp only [Bool.false_eq_true, if_false]
    constructor
    · rw [hdiv, Nat.and_div_two_pow, ← hdiv mask, hf.mask_div, Nat.and_two_pow_sub_one_eq_mod, ← hdiv, Nat.mod_eq_of_lt (by omega)]
    · rw [hmod, Nat.and_mod_two_pow, ← hmod mask, hf.mask_mod]
      exact (Nat.and_two_pow_sub_one_eq_mod (v % 2 ^ 2) 2).trans (Nat.mod_mod ..)
  · simp only [if_true]
    constructor
    · rw [hdiv, Nat.or_div_two_pow, ← hdiv flag, hf.flag_div, Nat.or_zero]
    · rw [hmod, Nat.or_mod_two_pow, ← hmod flag, hf.flag_mod, Nat.or_zero]

end

/-! ## The maps -/

/-- The frames of the user's pages, and whether they are writable. -/
abbrev PageMap := ℕ → Option (ℕ × Bool)

/-- The map that a page directory represents; `PHYS_BASE` is the page `0xc0000`. -/
def mapOf (mem : ℕ → UInt8) (pd : ℕ) : PageMap := fun u =>
  if u < 0xc0000 then
    if pageWord mem pd (u / 1024) = 0 then none
    else decode (pageWord mem (tableOf (pageWord mem pd (u / 1024))) (u % 1024))
  else none

/-- The page directories that were made. -/
structure Dirs where
  st : State
  dirs : List ℕ

/-- What a page is used for: as a page directory, or as the `i`-th page table of one. -/
inductive Role where
  | dir
  | table (pd i : ℕ)

/-- The pages with a role are in use and each has one role only; the kernel's half of a page directory is that of
    `init_page_dir`. -/
structure Ok (s : Dirs) (role : ℕ → Option Role) : Prop where
  page : ∀ {p r}, role p = some r → p ∈ s.st.used ∧ IsPage p
  initUsed : s.st.initPageDir ∈ s.st.used
  initPage : IsPage s.st.initPageDir
  initRole : role s.st.initPageDir = none
  initEntry : ∀ i < 768, pageWord s.st.mem s.st.initPageDir i = 0
  dir : ∀ {pd}, pd ∈ s.dirs → role pd = some .dir
  entry : ∀ {pd i}, pd ∈ s.dirs → i < 768 →
    pageWord s.st.mem pd i = 0 ∨ ∃ pt, role pt = some (.table pd i) ∧ pageWord s.st.mem pd i = pdeOf pt
  word : ∀ {pt pd i j}, role pt = some (.table pd i) → j < 1024 → pageWord s.st.mem pt j < 2 ^ 30
  kernel : ∀ {pd i}, pd ∈ s.dirs → 768 ≤ i → i < 1024 → pageWord s.st.mem pd i = pageWord s.st.mem s.st.initPageDir i

/-- The state and the maps of the page directories. -/
def Dirs.maps (s : Dirs) : ℕ → Option PageMap := fun pd => if pd ∈ s.dirs then some (mapOf s.st.mem pd) else none

section
variable {s : Dirs} {role : ℕ → Option Role} {pd pd' pt i j v vaddr : ℕ} {mem mem' : ℕ → UInt8}

theorem mapOf_congr (hdir : ∀ i < 768, pageWord mem' pd i = pageWord mem pd i)
    (htable : ∀ i < 768, pageWord mem pd i ≠ 0 → ∀ j < 1024,
      pageWord mem' (tableOf (pageWord mem pd i)) j = pageWord mem (tableOf (pageWord mem pd i)) j) :
    mapOf mem' pd = mapOf mem pd := by
  funext u
  unfold mapOf
  by_cases hu : u < 0xc0000
  · have hi : u / 1024 < 768 := by omega
    rw [if_pos hu, if_pos hu, hdir _ hi]
    by_cases hzero : pageWord mem pd (u / 1024) = 0
    · rw [if_pos hzero, if_pos hzero]
    · rw [if_neg hzero, if_neg hzero, htable _ hi hzero _ (Nat.mod_lt _ (by decide))]
  · rw [if_neg hu, if_neg hu]

namespace Ok

theorem table (h : Ok s role) (hpd : pd ∈ s.dirs) (hi : i < 768) (hne : pageWord s.st.mem pd i ≠ 0) :
    ∃ pt, role pt = some (.table pd i) ∧ pageWord s.st.mem pd i = pdeOf pt ∧ IsPage pt ∧
      tableOf (pageWord s.st.mem pd i) = pt := by
  obtain ⟨pt, hrole, hpde⟩ := (h.entry hpd hi).resolve_left hne
  have hpage := (h.page hrole).2
  exact ⟨pt, hrole, hpde, hpage, by rw [hpde, tableOf_pdeOf hpage]⟩

variable {p : ℕ}

theorem ne_of_role {q : ℕ} {r r' : Role} (hp : role p = some r) (hq : role q = some r') (hne : r ≠ r') : p ≠ q := by
  rintro rfl
  exact hne (Option.some.inj (hp.symm.trans hq))

theorem write (h : Ok s role) (hj : j < 1024) (hrole : role pt = some (.table pd i)) (hv : v < 2 ^ 30) : Ok ⟨s.st.withMem (putWord s.st.mem (pt + 4 * j) v), s.dirs⟩ role := by
  have hpt := (h.page hrole).2
  have hword : ∀ {q l}, q % 4096 = 0 → l < 1024 → pageWord (putWord s.st.mem (pt + 4 * j) v) q l =
      if q = pt ∧ l = j then v else pageWord s.st.mem q l := fun hq hl =>
    pageWord_putWord hpt.aligned hq hj hl (by omega)
  have hdir : ∀ {pd' i'}, pd' ∈ s.dirs → i' < 1024 →
      pageWord (putWord s.st.mem (pt + 4 * j) v) pd' i' = pageWord s.st.mem pd' i' := by
    intro pd' i' hpd' hi'
    rw [hword (h.page (h.dir hpd')).2.aligned hi', if_neg]
    exact fun hn => ne_of_role (h.dir hpd') hrole Role.noConfusion hn.1
  have hinit : ∀ {i'}, i' < 1024 →
      pageWord (putWord s.st.mem (pt + 4 * j) v) s.st.initPageDir i' = pageWord s.st.mem s.st.initPageDir i' := by
    intro i' hi'
    rw [hword h.initPage.aligned hi', if_neg]
    rintro ⟨he, -⟩
    rw [← he, h.initRole] at hrole
    cases hrole
  refine ⟨h.page, h.initUsed, h.initPage, h.initRole, fun i' hi' => ?_, h.dir, fun hpd' hi' => ?_, fun {pt' _ _ j'} hrole' hj' => ?_,
    fun hpd' hle hlt => ?_⟩
  · exact (hinit (by omega)).trans (h.initEntry i' hi')
  · change pageWord (putWord _ _ _) _ _ = 0 ∨ ∃ pt, _ ∧ pageWord (putWord _ _ _) _ _ = _
    rw [hdir hpd' (by omega)]
    exact h.entry hpd' hi'
  · change pageWord (putWord _ _ _) _ _ < _
    rw [hword (h.page hrole').2.aligned hj']
    split_ifs
    · exact hv
    · exact h.word hrole' hj'
  · change pageWord (putWord _ _ _) _ _ = pageWord (putWord _ _ _) s.st.initPageDir _
    rw [hdir hpd' hlt, hinit hlt]
    exact h.kernel hpd' hle hlt

theorem mapOf_write (h : Ok s role) (hi : i < 768) (hj : j < 1024)
    (hrole : role pt = some (.table pd i)) (hpde : pageWord s.st.mem pd i = pdeOf pt) (hv : v < 2 ^ 30)
    (hpd' : pd' ∈ s.dirs) : mapOf (putWord s.st.mem (pt + 4 * j) v) pd' =
      if pd' = pd then update (mapOf s.st.mem pd) (1024 * i + j) (decode v) else mapOf s.st.mem pd' := by
  have hpt := (h.page hrole).2
  have hword : ∀ {q l}, q % 4096 = 0 → l < 1024 → pageWord (putWord s.st.mem (pt + 4 * j) v) q l =
      if q = pt ∧ l = j then v else pageWord s.st.mem q l := fun hq hl =>
    pageWord_putWord hpt.aligned hq hj hl (by omega)
  have hdir : ∀ {i'}, i' < 768 → pageWord (putWord s.st.mem (pt + 4 * j) v) pd' i' = pageWord s.st.mem pd' i' := by
    intro i' hi'
    rw [hword (h.page (h.dir hpd')).2.aligned (by omega), if_neg]
    exact fun hn => ne_of_role (h.dir hpd') hrole Role.noConfusion hn.1
  split_ifs with heq
  · subst heq
    funext u
    rw [update_apply]
    unfold mapOf
    by_cases hu : u < 0xc0000
    · rw [if_pos hu, if_pos hu, hdir (by omega)]
      split_ifs with hzero hat hat
      · rw [show u / 1024 = i by omega, hpde] at hzero
        unfold pdeOf at hzero
        omega
      · rfl
      · have htable : tableOf (pageWord s.st.mem pd' (u / 1024)) = pt := by
          rw [show u / 1024 = i by omega, hpde, tableOf_pdeOf hpt]
        rw [htable, hword hpt.aligned (Nat.mod_lt _ (by decide)), if_pos ⟨rfl, by omega⟩]
      · obtain ⟨pt', hrole', -, hpt', htable'⟩ := h.table hpd' (by omega) hzero
        rw [htable', hword hpt'.aligned (Nat.mod_lt _ (by decide)), if_neg]
        rintro ⟨rfl, hj'⟩
        have := Role.table.inj (Option.some.inj (hrole.symm.trans hrole'))
        omega
    · rw [if_neg hu, if_neg hu, if_neg (by omega)]
  · refine mapOf_congr (fun i' hi' => hdir hi') fun i' hi' hne j' hj' => ?_
    obtain ⟨pt', hrole', -, hpt', htable'⟩ := h.table hpd' hi' hne
    rw [htable', hword hpt'.aligned hj', if_neg]
    rintro ⟨rfl, -⟩
    exact heq (Role.table.inj (Option.some.inj (hrole'.symm.trans hrole))).1

theorem of_fresh (h : Ok s role) (hp : p ∉ s.st.used) : role p = none ∧ p ≠ s.st.initPageDir := by
  refine ⟨?_, fun he => hp (he ▸ h.initUsed)⟩
  cases hr : role p with
  | none => rfl
  | some r => exact absurd (h.page hr).1 hp

theorem store {b : List UInt8} (h : Ok s role) (st : State) (hp : IsPage p) (hrole : role p = none)
    (hinit : p ≠ s.st.initPageDir) (hb : b.length ≤ 4096) (hmem : st.mem = Lib.store s.st.mem p b)
    (hused : ∀ q ≠ p, q ∈ s.st.used → q ∈ st.used) (hst : st.initPageDir = s.st.initPageDir) :
    Ok ⟨st, s.dirs⟩ role ∧ ∀ pd ∈ s.dirs, mapOf st.mem pd = mapOf s.st.mem pd := by
  have hword : ∀ {q r l}, role q = some r → l < 1024 → pageWord st.mem q l = pageWord s.st.mem q l := by
    intro q r l hq hl
    rw [hmem]
    refine pageWord_store hp.aligned (h.page hq).2.aligned hl (fun he => ?_) hb
    rw [he, hrole] at hq
    cases hq
  have hinit' : ∀ {l}, l < 1024 → pageWord st.mem st.initPageDir l = pageWord s.st.mem s.st.initPageDir l := by
    intro l hl
    rw [hmem, hst]
    exact pageWord_store hp.aligned h.initPage.aligned hl hinit.symm hb
  refine ⟨⟨fun {q r} hq => ⟨hused q ?_ (h.page hq).1, (h.page hq).2⟩, ?_, ?_, ?_, fun i hi => ?_, h.dir, fun hpd hi => ?_,
    fun hq hj => ?_, fun hpd hle hlt => ?_⟩, fun pd hpd => ?_⟩
  · rintro rfl
    cases hrole.symm.trans hq
  · rw [hst]
    exact hused _ hinit.symm h.initUsed
  · rw [hst]
    exact h.initPage
  · rw [hst]
    exact h.initRole
  · exact (hinit' (by omega)).trans (h.initEntry i hi)
  · dsimp only
    rw [hword (h.dir hpd) (by omega)]
    exact h.entry hpd hi
  · dsimp only
    rw [hword hq hj]
    exact h.word hq hj
  · dsimp only
    rw [hword (h.dir hpd) hlt, hinit' hlt]
    exact h.kernel hpd hle hlt
  · refine mapOf_congr (fun i hi => hword (h.dir hpd) (by omega)) fun i hi hne j hj => ?_
    obtain ⟨pt, hpt, -, -, htable⟩ := h.table hpd hi hne
    rw [htable]
    exact hword hpt hj

theorem newTable (h : Ok s role) (hpd : pd ∈ s.dirs) (hi : i < 768) (hpt : IsPage pt) (hrole : role pt = none)
    (hused : pt ∈ s.st.used) (hinit : pt ≠ s.st.initPageDir) (hempty : ∀ j < 1024, pageWord s.st.mem pt j = 0)
    (hzero : pageWord s.st.mem pd i = 0) :
    Ok ⟨s.st.withMem (putWord s.st.mem (pd + 4 * i) (pdeOf pt)), s.dirs⟩ (update role pt (some (.table pd i))) ∧
      ∀ pd' ∈ s.dirs, mapOf (putWord s.st.mem (pd + 4 * i) (pdeOf pt)) pd' = mapOf s.st.mem pd' := by
  have hdir := h.dir hpd
  have hlt := pdeOf_lt hpt
  have hword : ∀ {q l}, q % 4096 = 0 → l < 1024 → pageWord (putWord s.st.mem (pd + 4 * i) (pdeOf pt)) q l =
      if q = pd ∧ l = i then pdeOf pt else pageWord s.st.mem q l := fun hq hl =>
    pageWord_putWord (h.page hdir).2.aligned hq (by omega) hl (by omega)
  have hrole' : ∀ {q}, q ≠ pt → update role pt (some (.table pd i)) q = role q := fun hq => update_of_ne hq ..
  have hne : ∀ {q r}, role q = some r → q ≠ pt := by
    rintro q r hq rfl
    rw [hrole] at hq
    cases hq
  have htable : ∀ {q pd' i' j'}, role q = some (.table pd' i') → j' < 1024 →
      pageWord (putWord s.st.mem (pd + 4 * i) (pdeOf pt)) q j' = pageWord s.st.mem q j' := by
    intro q pd' i' j' hq hj'
    rw [hword (h.page hq).2.aligned hj', if_neg]
    rintro ⟨rfl, -⟩
    exact ne_of_role hdir hq Role.noConfusion rfl
  have hnew : ∀ {j'}, j' < 1024 → pageWord (putWord s.st.mem (pd + 4 * i) (pdeOf pt)) pt j' = 0 := by
    intro j' hj'
    rw [hword hpt.aligned hj', if_neg (fun hn => hne hdir hn.1.symm), hempty j' hj']
  have hinit' : ∀ {l}, l < 1024 → pageWord (putWord s.st.mem (pd + 4 * i) (pdeOf pt)) s.st.initPageDir l =
      pageWord s.st.mem s.st.initPageDir l := by
    intro l hl
    rw [hword h.initPage.aligned hl, if_neg]
    rintro ⟨he, -⟩
    rw [← he, h.initRole] at hdir
    cases hdir
  refine ⟨⟨fun {q r} hq => ?_, h.initUsed, h.initPage, ?_, fun i' hi' => ?_, fun hpd' => ?_, fun {pd' i'} hpd' hi' => ?_,
    fun {q _ _ j'} hq hj' => ?_, fun {pd' i'} hpd' hle hlt' => ?_⟩, fun pd' hpd' => ?_⟩
  · rcases eq_or_ne q pt with rfl | hqpt
    · exact ⟨hused, hpt⟩
    · rw [hrole' hqpt] at hq
      exact h.page hq
  · exact (hrole' hinit.symm).trans h.initRole
  · exact (hinit' (by omega)).trans (h.initEntry i' hi')
  · rw [hrole' (hne (h.dir hpd'))]
    exact h.dir hpd'
  · change pageWord (putWord _ _ _) _ _ = 0 ∨ ∃ pt, _ ∧ pageWord (putWord _ _ _) _ _ = _
    rw [hword (h.page (h.dir hpd')).2.aligned (by omega)]
    split_ifs with hat
    · refine .inr ⟨pt, ?_, rfl⟩
      rw [update_self, hat.1, hat.2]
    · refine (h.entry hpd' hi').imp_right fun ⟨pt', hpt', hpde'⟩ => ⟨pt', ?_, hpde'⟩
      rw [hrole' (hne hpt')]
      exact hpt'
  · change pageWord (putWord _ _ _) _ _ < _
    rcases eq_or_ne q pt with rfl | hqpt
    · rw [hnew hj']
      decide
    · rw [hrole' hqpt] at hq
      rw [htable hq hj']
      exact h.word hq hj'
  · change pageWord (putWord _ _ _) _ _ = pageWord (putWord _ _ _) s.st.initPageDir _
    rw [hinit' hlt', hword (h.page (h.dir hpd')).2.aligned hlt', if_neg (by omega)]
    exact h.kernel hpd' hle hlt'
  · funext u
    unfold mapOf
    by_cases hu : u < 0xc0000
    · rw [if_pos hu, if_pos hu, hword (h.page (h.dir hpd')).2.aligned (by omega)]
      by_cases hat : pd' = pd ∧ u / 1024 = i
      · rw [if_pos hat, hat.1, hat.2, if_pos hzero, if_neg (by unfold pdeOf; omega), tableOf_pdeOf hpt,
          hnew (Nat.mod_lt _ (by decide)), decode_eq_none rfl]
      · rw [if_neg hat]
        split_ifs with hz
        · rfl
        · obtain ⟨pt', hpt', -, -, htable'⟩ := h.table hpd' (by omega) hz
          rw [htable', htable hpt' (Nat.mod_lt _ (by decide))]
    · rw [if_neg hu, if_neg hu]

theorem newDir (h : Ok s role) (hpd : IsPage pd) (hrole : role pd = none) (hused : pd ∈ s.st.used)
    (hinit : pd ≠ s.st.initPageDir) (hcopy : ∀ i < 1024, pageWord s.st.mem pd i = pageWord s.st.mem s.st.initPageDir i) :
    Ok ⟨s.st, pd :: s.dirs⟩ (update role pd (some .dir)) ∧ mapOf s.st.mem pd = fun _ => none := by
  have hrole' : ∀ {q}, q ≠ pd → update role pd (some .dir) q = role q := fun hq => update_of_ne hq ..
  have hne : ∀ {q r}, role q = some r → q ≠ pd := by
    rintro q r hq rfl
    rw [hrole] at hq
    cases hq
  have hzero : ∀ i < 768, pageWord s.st.mem pd i = 0 := fun i hi => (hcopy i (by omega)).trans (h.initEntry i hi)
  refine ⟨⟨fun {q r} hq => ?_, h.initUsed, h.initPage, (hrole' hinit.symm).trans h.initRole, h.initEntry, fun hpd' => ?_,
    fun {pd' i'} hpd' hi' => ?_, fun {q _ _ j'} hq hj' => ?_, fun {pd' i'} hpd' hle hlt' => ?_⟩, ?_⟩
  · rcases eq_or_ne q pd with rfl | hqpd
    · exact ⟨hused, hpd⟩
    · rw [hrole' hqpd] at hq
      exact h.page hq
  · rcases mem_cons.1 hpd' with rfl | hpd'
    · exact update_self ..
    · rw [hrole' (hne (h.dir hpd'))]
      exact h.dir hpd'
  · rcases mem_cons.1 hpd' with rfl | hpd'
    · exact .inl (hzero i' hi')
    · refine (h.entry hpd' hi').imp_right fun ⟨pt', hpt', hpde'⟩ => ⟨pt', ?_, hpde'⟩
      rw [hrole' (hne hpt')]
      exact hpt'
  · rcases eq_or_ne q pd with rfl | hqpd
    · rw [update_self] at hq
      cases hq
    · rw [hrole' hqpd] at hq
      exact h.word hq hj'
  · rcases mem_cons.1 hpd' with rfl | hpd'
    · exact hcopy i' hlt'
    · exact h.kernel hpd' hle hlt'
  · funext u
    unfold mapOf
    split_ifs with hu hz
    · rfl
    · exact absurd (hzero _ (by omega)) hz
    · rfl

end Ok

end

end Pintos.Paging
