/-
  The page allocator (threads/palloc.c).

  Free memory is divided into a kernel and a user pool.  Each pool begins with the pages of its bitmap, in
  which the bit `i` says whether the page `i` behind them is in use.  Addresses are kernel virtual
  addresses; the page of an address is its page number `pg_no`.
-/
import Pintos.Fs.Bitmap
import Pintos.Lib.Prog
import Pintos.Lib.Steps
import Pintos.UserMemory

namespace Pintos

open Lib Prog List

/-! ## The allocator -/

/-- Why the allocator stops the kernel. -/
inductive PallocPanic where
  /-- an address that is not in the kernel's half of the address space, whether or not the assertion of
      `ptov` catches it -/
  | address
  /-- `Not enough memory in %s for bitmap.` -/
  | notEnough
  /-- `palloc_get: out of pages` -/
  | outOfPages
  /-- the assertions of `palloc_free_multiple`, with `NOT_REACHED` -/
  | free
  | bitmap (e : Panic)
  deriving DecidableEq, Repr

/-- `struct pool`, with the address of `used_map`. -/
structure Pool where
  usedMap : Bitmap
  mapAt : ℕ
  base : ℕ

structure Palloc where
  kernelPool : Pool
  userPool : Pool
  /-- the bytes of memory, except those of the bitmaps -/
  mem : ℕ → UInt8

/-- `enum palloc_flags`. -/
structure PallocFlags where
  assert : Bool
  zero : Bool
  user : Bool

abbrev PallocM := Prog Palloc PallocPanic

/-- `bitmap_buf_size`; `struct bitmap` has 8 bytes. -/
def bitmapBufSize (bitCnt : ℕ) : ℕ := 8 + Bitmap.byteCnt bitCnt

/-- `ptov`.  Its assertion admits addresses that are not mapped: `paddr + PHYS_BASE` must be an
    address. -/
def ptov (paddr : ℕ) : Except PallocPanic ℕ :=
  if paddr < 0xc0000000 ∧ paddr + 0xc0000000 ≤ 2 ^ 32 then .ok (paddr + 0xc0000000) else .error .address

/-- `init_pool`, with `bitmap_create_in_buf`; `junk` is what is in the buffer. -/
def initPool (base pageCnt : ℕ) (junk : ℕ → Bool) : Except PallocPanic Pool :=
  let bmPages := (bitmapBufSize pageCnt + 4095) / 4096
  if bmPages > pageCnt then .error .notEnough
  else
    let pageCnt := pageCnt - bmPages
    if bitmapBufSize pageCnt ≤ bmPages * 4096 then .ok ⟨.create pageCnt junk, base, base + bmPages * 4096⟩
    else .error (.bitmap .bitmap)

/-- `palloc_init`.  `init_ram_pages` counts the first megabyte, so that `free_end` is not before
    `free_start`. -/
def pallocInit (initRamPages userPageLimit : ℕ) (junk : ℕ → Bool) (mem : ℕ → UInt8) : Except PallocPanic Palloc := do
  let freeStart ← ptov (1024 * 1024)
  let freeEnd ← ptov (initRamPages * 4096 % 2 ^ 32)
  if freeEnd < freeStart then throw .address
  else do
    let freePages := (freeEnd - freeStart) / 4096
    let userPages := if freePages / 2 > userPageLimit then userPageLimit else freePages / 2
    let kernelPages := freePages - userPages
    let kernelPool ← initPool freeStart kernelPages junk
    let userPool ← initPool (freeStart + kernelPages * 4096) userPages junk
    pure ⟨kernelPool, userPool, mem⟩

/-- `flags & PAL_USER ? &user_pool : &kernel_pool`. -/
def Palloc.pool (s : Palloc) (user : Bool) : Pool := if user then s.userPool else s.kernelPool

def Palloc.setMap (s : Palloc) (user : Bool) (usedMap : Bitmap) : Palloc :=
  if user then { s with userPool := { s.userPool with usedMap } }
  else { s with kernelPool := { s.kernelPool with usedMap } }

def Palloc.memset (s : Palloc) (dst : ℕ) (value : UInt8) (size : ℕ) : Palloc :=
  { s with mem := fun a => if dst ≤ a ∧ a < dst + size then value else s.mem a }

/-- A computation on a bitmap. -/
def onBitmap {α : Type} (x : Except Panic α) : PallocM α :=
  match x with
  | .ok a => pure a
  | .error e => throw (.bitmap e)

def pallocGetMultiple (flags : PallocFlags) (pageCnt : ℕ) : PallocM (Option ℕ) :=
  if pageCnt = 0 then pure none
  else do
    let s ← get
    let pool := s.pool flags.user
    let flipped ← onBitmap (pool.usedMap.scanAndFlip 0 pageCnt false)
    modify fun s => s.setMap flags.user flipped.2
    match flipped.1 with
    | some pageIdx => do
      let pages := pool.base + 4096 * pageIdx
      modify fun s => if flags.zero then s.memset pages 0 (4096 * pageCnt) else s
      pure (some pages)
    | none => if flags.assert then throw .outOfPages else pure none

def pageFromPool (pool : Pool) (page : ℕ) : Bool :=
  pgNo page ≥ pgNo pool.base && pgNo page < pgNo pool.base + pool.usedMap.bitCnt

/-- Whether the page is from the user pool; it must be from one of them. -/
def findPool (s : Palloc) (page : ℕ) : PallocM Bool :=
  if pageFromPool s.kernelPool page then pure false
  else if pageFromPool s.userPool page then pure true
  else throw .free

def pallocFreeMultiple (pages pageCnt : ℕ) : PallocM Unit :=
  if pages % 4096 ≠ 0 then throw .free
  else if pages = 0 ∨ pageCnt = 0 then pure ()
  else do
    let s ← get
    let user ← findPool s pages
    let pool := s.pool user
    let pageIdx := pgNo pages - pgNo pool.base
    modify fun s => s.memset pages 0xcc (4096 * pageCnt)
    let all ← onBitmap (pool.usedMap.all pageIdx pageCnt)
    if all then do
      let usedMap ← onBitmap (pool.usedMap.setMultiple pageIdx pageCnt false)
      modify fun s => s.setMap user usedMap
    else throw .free

/-! ## The pools -/

/-- The pages of a pool. -/
def Pool.Has (p : Pool) (page : ℕ) : Prop := pgNo p.base ≤ page ∧ page < pgNo p.base + p.usedMap.bitCnt

/-- The pages of a pool's bitmap. -/
def Pool.MapHas (p : Pool) (page : ℕ) : Prop := pgNo p.mapAt ≤ page ∧ page < pgNo p.base

/-- The bit of a page. -/
def Pool.bit (p : Pool) (page : ℕ) : Bool := p.usedMap.bits (page - pgNo p.base)

/-- The pools lie one behind the other, each behind its bitmap, in the kernel's half of the address
    space. -/
structure Palloc.Layout (s : Palloc) : Prop where
  kernelStart : 0xc0100000 ≤ s.kernelPool.mapAt
  kernelBase : s.kernelPool.mapAt < s.kernelPool.base
  userStart : s.kernelPool.base + 4096 * s.kernelPool.usedMap.bitCnt ≤ s.userPool.mapAt
  userBase : s.userPool.mapAt < s.userPool.base
  userEnd : s.userPool.base + 4096 * s.userPool.usedMap.bitCnt ≤ 2 ^ 32
  aligned : s.kernelPool.base % 4096 = 0 ∧ s.userPool.mapAt % 4096 = 0 ∧ s.userPool.base % 4096 = 0

section
variable {s t : Palloc} {user : Bool} {page : ℕ}

theorem setMap_memset (dst : ℕ) (value : UInt8) (size : ℕ) (b : Bitmap) :
    (s.memset dst value size).setMap user b = (s.setMap user b).memset dst value size := by
  cases user <;> rfl

theorem pool_setMap (s : Palloc) (user user' : Bool) (b : Bitmap) :
    (s.setMap user b).pool user' = if user' = user then { s.pool user with usedMap := b } else s.pool user' := by
  cases user <;> cases user' <;> rfl

theorem ptov_ok {paddr va : ℕ} (h : ptov paddr = .ok va) : va = paddr + 0xc0000000 ∧ va ≤ 2 ^ 32 := by
  unfold ptov at h
  split_ifs at h with hle
  obtain rfl := Except.ok.inj h
  exact ⟨rfl, hle.2⟩

theorem initPool_ok {base pageCnt : ℕ} {junk : ℕ → Bool} {p : Pool} (h : initPool base pageCnt junk = .ok p) :
    p.mapAt = base ∧ base < p.base ∧ (p.base - base) % 4096 = 0 ∧
      p.base + 4096 * p.usedMap.bitCnt = base + 4096 * pageCnt ∧ ∀ i < p.usedMap.bitCnt, p.usedMap.bits i = false := by
  have hpos : 0 < (bitmapBufSize pageCnt + 4095) / 4096 := by unfold bitmapBufSize; omega
  unfold initPool at h
  dsimp only at h
  split_ifs at h with hlt
  obtain rfl := Except.ok.inj h
  refine ⟨rfl, by dsimp only; omega, by dsimp only; omega, ?_, fun i hi => if_pos hi⟩
  change base + (bitmapBufSize pageCnt + 4095) / 4096 * 4096 + 4096 * (pageCnt - (bitmapBufSize pageCnt + 4095) / 4096) = _
  omega

theorem except_bind_ok {ε α β : Type} {x : Except ε α} {f : α → Except ε β} {b : β} (h : x >>= f = .ok b) :
    ∃ a, x = .ok a ∧ f a = .ok b := by
  cases x with
  | error e => cases h
  | ok a => exact ⟨a, rfl, h⟩

theorem pallocInit_ok {initRamPages userPageLimit : ℕ} {junk : ℕ → Bool} {mem : ℕ → UInt8}
    (h : pallocInit initRamPages userPageLimit junk mem = .ok s) :
    s.Layout ∧ ∀ user, ∀ i < (s.pool user).usedMap.bitCnt, (s.pool user).usedMap.bits i = false := by
  obtain ⟨freeStart, hstart, h⟩ := except_bind_ok h
  obtain ⟨freeEnd, hend, h⟩ := except_bind_ok h
  obtain ⟨rfl, -⟩ := ptov_ok hstart
  obtain ⟨-, hend⟩ := ptov_ok hend
  split_ifs at h with hlt
  generalize hfree : (freeEnd - (1024 * 1024 + 0xc0000000)) / 4096 = freePages at h
  generalize huser : (if freePages / 2 > userPageLimit then userPageLimit else freePages / 2) = userPages at h
  obtain ⟨kernel, hkernel, h⟩ := except_bind_ok h
  obtain ⟨usr, husr, h⟩ := except_bind_ok h
  obtain rfl := Except.ok.inj h
  obtain ⟨k1, k2, k3, k4, k5⟩ := initPool_ok hkernel
  obtain ⟨u1, u2, u3, u4, u5⟩ := initPool_ok husr
  refine ⟨⟨?_, ?_, ?_, ?_, ?_, ?_⟩, fun user => ?_⟩
  · exact k1.ge
  · rwa [k1]
  · dsimp only
    omega
  · rw [u1]
    exact u2
  · dsimp only
    omega
  · dsimp only
    omega
  · cases user
    · exact k5
    · exact u5

namespace Palloc

theorem Layout.bitCnt_lt (h : s.Layout) (user : Bool) : (s.pool user).usedMap.bitCnt < 2 ^ 32 := by
  have h2 := h.userStart
  have h3 := h.userBase
  have h4 := h.userEnd
  cases user
  · change s.kernelPool.usedMap.bitCnt < _
    omega
  · change s.userPool.usedMap.bitCnt < _
    omega

theorem Layout.setMap (h : s.Layout) {b : Bitmap} (hb : b.bitCnt = (s.pool user).usedMap.bitCnt) : (s.setMap user b).Layout := by
  cases user
  · exact ⟨h.1, h.2, by change _ + 4096 * b.bitCnt ≤ _; rw [hb]; exact h.3, h.4, h.5, h.6⟩
  · exact ⟨h.1, h.2, h.3, h.4, by change _ + 4096 * b.bitCnt ≤ _; rw [hb]; exact h.5, h.6⟩

theorem Layout.memset (h : s.Layout) (dst : ℕ) (value : UInt8) (size : ℕ) : (s.memset dst value size).Layout :=
  ⟨h.1, h.2, h.3, h.4, h.5, h.6⟩

theorem Layout.apart (h : s.Layout) (hpage : (s.pool user).Has page) :
    ¬ (s.pool (!user)).Has page ∧ ∀ user', ¬ (s.pool user').MapHas page := by
  have h2 := h.userStart
  have h3 := h.userBase
  have hk : s.pool false = s.kernelPool := rfl
  have hu : s.pool true = s.userPool := rfl
  unfold Pool.Has pgNo pgSize at hpage
  unfold Pool.Has Pool.MapHas pgNo pgSize
  rw [Bool.forall_bool]
  cases user
  · rw [hk] at hpage
    rw [Bool.not_false, hk, hu]
    omega
  · rw [hu] at hpage
    rw [Bool.not_true, hk, hu]
    omega

end Palloc

end

/-! ## Runs -/

/-- Pages that were returned: the `cnt` pages from the address `pages` on, of the pool that the flags
    selected. -/
structure PageRange where
  user : Bool
  pages : ℕ
  cnt : ℕ
  deriving DecidableEq, Repr

def PageRange.Has (r : PageRange) (page : ℕ) : Prop := pgNo r.pages ≤ page ∧ page < pgNo r.pages + r.cnt

/-- The allocator and the ranges in use. -/
structure Allocs where
  palloc : Palloc
  live : List PageRange

inductive PallocOp where
  | get (flags : PallocFlags) (pageCnt : ℕ)
  | free (r : PageRange)

namespace Allocs

/-- One call; ranges are freed as they were returned.  A call that panics is no step. -/
def step (s : Allocs) : PallocOp → Option Allocs
  | .get flags pageCnt =>
    match (pallocGetMultiple flags pageCnt).run s.palloc with
    | .ok (some pages, palloc) => some ⟨palloc, ⟨flags.user, pages, pageCnt⟩ :: s.live⟩
    | .ok (none, palloc) => some ⟨palloc, s.live⟩
    | .error _ => none
  | .free r =>
    if r ∈ s.live then
      match (pallocFreeMultiple r.pages r.cnt).run s.palloc with
      | .ok (_, palloc) => some ⟨palloc, s.live.erase r⟩
      | .error _ => none
    else none

/-- The page lies in no range that is in use. -/
def Free (s : Allocs) (page : ℕ) : Prop := ∀ r ∈ s.live, ¬ r.Has page

structure Ok (s : Allocs) : Prop where
  layout : s.palloc.Layout
  aligned : ∀ r ∈ s.live, r.pages % 4096 = 0 ∧ 0 < r.cnt
  inside : ∀ r ∈ s.live, ∀ page, r.Has page → (s.palloc.pool r.user).Has page
  disjoint : s.live.Pairwise fun r r' => ∀ page, r.Has page → ¬ r'.Has page
  bit : ∀ user page, (s.palloc.pool user).Has page → ((s.palloc.pool user).bit page = false ↔ s.Free page)

variable {s : Allocs} {t : Palloc} {user : Bool} {page idx cnt : ℕ}

theorem ok_init {initRamPages userPageLimit : ℕ} {junk : ℕ → Bool} {mem : ℕ → UInt8}
    (h : pallocInit initRamPages userPageLimit junk mem = .ok t) : Ok ⟨t, []⟩ := by
  obtain ⟨hlayout, hbits⟩ := pallocInit_ok h
  refine ⟨hlayout, nofun, nofun, .nil, fun user page hpage => ⟨fun _ => nofun, fun _ => ?_⟩⟩
  have hpage : (t.pool user).Has page := hpage
  unfold Pool.Has at hpage
  exact hbits user (page - pgNo (t.pool user).base) (by omega)

theorem has_range (p : Pool) (user : Bool) (idx cnt page : ℕ) :
    (⟨user, p.base + 4096 * idx, cnt⟩ : PageRange).Has page ↔ pgNo p.base + idx ≤ page ∧ page < pgNo p.base + idx + cnt := by
  unfold PageRange.Has pgNo pgSize
  rw [Nat.add_mul_div_left _ _ (by decide)]

theorem bit_fill (p : Pool) (idx cnt page : ℕ) (value : Bool) (hpage : pgNo p.base ≤ page) :
    ({ p with usedMap := p.usedMap.fill idx cnt value } : Pool).bit page =
      if pgNo p.base + idx ≤ page ∧ page < pgNo p.base + idx + cnt then value else p.bit page := by
  unfold Pool.bit Bitmap.fill
  dsimp only
  by_cases h : pgNo p.base + idx ≤ page ∧ page < pgNo p.base + idx + cnt
  · rw [if_pos h, if_pos (by omega)]
  · rw [if_neg h, if_neg (by omega)]

/-- The pools after the bits of a range have changed. -/
structure Filled (s t : Palloc) (user : Bool) (idx cnt : ℕ) (value : Bool) : Prop where
  layout : t.Layout
  pool : t.pool user = { s.pool user with usedMap := (s.pool user).usedMap.fill idx cnt value }
  other : t.pool (!user) = s.pool (!user)

variable {p : Palloc}

theorem Filled.has {value : Bool} (h : Filled p t user idx cnt value) (user' : Bool) :
    (t.pool user').Has = (p.pool user').Has := by
  rcases Bool.eq_or_eq_not user' user with rfl | rfl
  · rw [h.pool]
    rfl
  · rw [h.other]

theorem filled_setMap (h : p.Layout) (user : Bool) (idx cnt : ℕ) (value : Bool) :
    Filled p (p.setMap user ((p.pool user).usedMap.fill idx cnt value)) user idx cnt value := by
  refine ⟨h.setMap rfl, ?_, ?_⟩
  · rw [pool_setMap, if_pos rfl]
  · rw [pool_setMap, if_neg (Bool.not_ne_self user)]

theorem Filled.memset {value : Bool} (h : Filled p t user idx cnt value) (dst : ℕ) (v : UInt8) (size : ℕ) :
    Filled p (t.memset dst v size) user idx cnt value :=
  ⟨h.layout.memset dst v size, h.pool, h.other⟩

theorem Ok.alloc (h : s.Ok) (ht : Filled s.palloc t user idx cnt true) (hcnt : 0 < cnt)
    (hle : idx + cnt ≤ (s.palloc.pool user).usedMap.bitCnt)
    (hfree : ∀ j < cnt, (s.palloc.pool user).usedMap.bits (idx + j) = false) :
    Ok ⟨t, ⟨user, (s.palloc.pool user).base + 4096 * idx, cnt⟩ :: s.live⟩ := by
  set r : PageRange := ⟨user, (s.palloc.pool user).base + 4096 * idx, cnt⟩ with hr
  have hhas : ∀ page, r.Has page → (s.palloc.pool user).Has page := by
    intro page hpage
    rw [hr, has_range] at hpage
    unfold Pool.Has
    omega
  have hrfree : ∀ page, r.Has page → s.Free page := by
    intro page hpage
    refine (h.bit user page (hhas page hpage)).1 ?_
    rw [hr, has_range] at hpage
    have := hfree (page - (pgNo (s.palloc.pool user).base + idx)) (by omega)
    unfold Pool.bit
    rwa [show page - pgNo (s.palloc.pool user).base = idx + (page - (pgNo (s.palloc.pool user).base + idx)) by omega]
  have hlive : ∀ page, Free ⟨t, r :: s.live⟩ page ↔ ¬ r.Has page ∧ s.Free page := fun page => forall_mem_cons
  refine ⟨ht.layout, fun r' hr' => ?_, fun r' hr' => ?_, ?_, fun user' page hpage => ?_⟩
  · rcases mem_cons.1 hr' with rfl | hr'
    · have := h.layout.aligned
      refine ⟨?_, hcnt⟩
      cases user
      · change (s.palloc.kernelPool.base + _) % 4096 = 0
        omega
      · change (s.palloc.userPool.base + _) % 4096 = 0
        omega
    · exact h.aligned r' hr'
  · dsimp only
    rw [ht.has]
    rcases mem_cons.1 hr' with rfl | hr'
    · exact hhas
    · exact h.inside r' hr'
  · exact pairwise_cons.2 ⟨fun r' hr' page hpage => hrfree page hpage r' hr', h.disjoint⟩
  · dsimp only at hpage ⊢
    rw [ht.has] at hpage
    rw [hlive, ← h.bit user' page hpage]
    rcases Bool.eq_or_eq_not user' user with rfl | rfl
    · rw [ht.pool, bit_fill _ _ _ _ _ hpage.1, hr, has_range]
      split_ifs with hin
      · exact ⟨nofun, fun hn => absurd hin hn.1⟩
      · exact ⟨fun hbit => ⟨hin, hbit⟩, fun hn => hn.2⟩
    · rw [ht.other]
      refine ⟨fun hbit => ⟨fun hin => ?_, hbit⟩, fun hn => hn.2⟩
      exact (h.layout.apart (hhas page hin)).1 hpage

theorem Ok.release {r : PageRange} (h : s.Ok) (hr : r ∈ s.live)
    (hidx : r.pages = (s.palloc.pool r.user).base + 4096 * idx) (ht : Filled s.palloc t r.user idx r.cnt false) :
    Ok ⟨t, s.live.erase r⟩ := by
  have hhas : ∀ page, r.Has page ↔ pgNo (s.palloc.pool r.user).base + idx ≤ page ∧
      page < pgNo (s.palloc.pool r.user).base + idx + r.cnt := by
    intro page
    rw [← has_range (s.palloc.pool r.user) r.user, ← hidx]
  have hpair := (perm_cons_erase hr).pairwise_iff
    (fun h page h1 h2 => h page h2 h1) |>.1 h.disjoint
  obtain ⟨hapart, hrest⟩ := pairwise_cons.1 hpair
  have hlive : ∀ page, Free ⟨t, s.live.erase r⟩ page ↔ r.Has page ∨ s.Free page := by
    intro page
    constructor
    · intro hpage
      by_cases hin : r.Has page
      · exact .inl hin
      · refine .inr fun r' hr' => ?_
        rcases mem_cons.1 ((perm_cons_erase hr).mem_iff.1 hr') with rfl | hr'
        · exact hin
        · exact hpage r' hr'
    · rintro (hin | hpage) r' hr'
      · exact hapart r' hr' page hin
      · exact hpage r' (mem_of_mem_erase hr')
  refine ⟨ht.layout, fun r' hr' => h.aligned r' (mem_of_mem_erase hr'), fun r' hr' => ?_, hrest,
    fun user' page hpage => ?_⟩
  · dsimp only
    rw [ht.has]
    exact h.inside r' (mem_of_mem_erase hr')
  · dsimp only at hpage ⊢
    rw [ht.has] at hpage
    rw [hlive, ← h.bit user' page hpage]
    rcases Bool.eq_or_eq_not user' r.user with rfl | rfl
    · rw [ht.pool, bit_fill _ _ _ _ _ hpage.1, hhas]
      split_ifs with hin
      · exact ⟨fun _ => .inl hin, fun _ => rfl⟩
      · exact ⟨.inr, fun hn => hn.resolve_left hin⟩
    · rw [ht.other]
      refine ⟨.inr, fun hn => hn.resolve_left fun hin => ?_⟩
      exact (h.layout.apart (h.inside r hr page hin)).1 hpage

/-! ## The calls -/

theorem get_run (h : p.Layout) (flags : PallocFlags) (hcnt : 0 < cnt) :
    (∃ idx t, (pallocGetMultiple flags cnt).run p = .ok (some ((p.pool flags.user).base + 4096 * idx), t) ∧
      Filled p t flags.user idx cnt true ∧ idx + cnt ≤ (p.pool flags.user).usedMap.bitCnt ∧
      ∀ j < cnt, (p.pool flags.user).usedMap.bits (idx + j) = false) ∨
    ((pallocGetMultiple flags cnt).run p = (if flags.assert then .error .outOfPages else .ok (none, p)) ∧
      ∀ k, k + cnt ≤ (p.pool flags.user).usedMap.bitCnt → ∃ j < cnt, (p.pool flags.user).usedMap.bits (k + j) = true) := by
  unfold pallocGetMultiple
  rw [if_neg (by omega), run_bind_get]
  dsimp only
  rcases Bitmap.scanAndFlip_spec (h.bitCnt_lt flags.user) cnt with ⟨idx, hscan, hle, hfree, -⟩ | ⟨hscan, hno⟩
  · rw [hscan]
    refine .inl ⟨idx, _, rfl, ?_, hle, hfree⟩
    have hfilled := filled_setMap h flags.user idx cnt true
    split_ifs
    · exact hfilled.memset _ _ _
    · exact hfilled
  · rw [hscan]
    refine .inr ⟨?_, hno⟩
    have hsame : p.setMap flags.user (p.pool flags.user).usedMap = p := by cases flags.user <;> rfl
    change StateT.run (if flags.assert then throw .outOfPages else pure none : PallocM (Option ℕ))
      (p.setMap flags.user (p.pool flags.user).usedMap) = _
    rw [hsame]
    split_ifs <;> rfl

theorem Ok.free_run {r : PageRange} (h : s.Ok) (hr : r ∈ s.live) :
    ∃ idx t, (pallocFreeMultiple r.pages r.cnt).run s.palloc = .ok ((), t) ∧
      r.pages = (s.palloc.pool r.user).base + 4096 * idx ∧ Filled s.palloc t r.user idx r.cnt false := by
  obtain ⟨haligned, hcnt⟩ := h.aligned r hr
  have hinside := h.inside r hr
  have hfirst := hinside (pgNo r.pages) ⟨le_rfl, by omega⟩
  have hlast := hinside (pgNo r.pages + (r.cnt - 1)) ⟨by omega, by omega⟩
  set pool := s.palloc.pool r.user with hpool
  have hbase : pool.base % 4096 = 0 ∧ 0 < pool.base := by
    have h1 := h.layout.aligned
    have h2 := h.layout.kernelBase
    have h3 := h.layout.userBase
    rw [hpool]
    cases r.user
    · change s.palloc.kernelPool.base % 4096 = 0 ∧ 0 < s.palloc.kernelPool.base
      omega
    · change s.palloc.userPool.base % 4096 = 0 ∧ 0 < s.palloc.userPool.base
      omega
  unfold Pool.Has at hfirst hlast
  have hidx : r.pages = pool.base + 4096 * (pgNo r.pages - pgNo pool.base) := by
    unfold pgNo pgSize at hfirst ⊢
    omega
  have hle : pgNo r.pages - pgNo pool.base + r.cnt ≤ pool.usedMap.bitCnt := by omega
  have hbits : ∀ j < r.cnt, pool.usedMap.bits (pgNo r.pages - pgNo pool.base + j) = true := by
    intro j hj
    have hin : r.Has (pgNo r.pages + j) := ⟨by omega, by omega⟩
    have hbit := (h.bit r.user _ (hinside _ hin)).not.2 fun hfree => hfree r hr hin
    rw [show pgNo r.pages - pgNo pool.base + j = pgNo r.pages + j - pgNo pool.base by omega]
    exact Bool.eq_true_of_not_eq_false hbit
  -- the pool is found by the page number
  have hfrom : findPool s.palloc r.pages = pure r.user := by
    unfold findPool
    have hin : pageFromPool pool r.pages = true := by
      unfold pageFromPool
      rwa [Bool.and_eq_true, decide_eq_true_eq, decide_eq_true_eq]
    cases huser : r.user with
    | false =>
      rw [hpool, huser] at hin
      exact if_pos hin
    | true =>
      have hnot : pageFromPool s.palloc.kernelPool r.pages = false := by
        have hapart := (h.layout.apart (hinside (pgNo r.pages) ⟨le_rfl, by omega⟩)).1
        rw [huser] at hapart
        unfold pageFromPool
        rwa [Bool.and_eq_false_iff, decide_eq_false_iff_not, decide_eq_false_iff_not, ← not_and_or]
      rw [hpool, huser] at hin
      rw [hnot, if_neg Bool.false_ne_true]
      exact if_pos hin
  refine ⟨_, _, ?_, hidx, (filled_setMap h.layout r.user _ r.cnt false).memset r.pages 0xcc (4096 * r.cnt)⟩
  unfold pallocFreeMultiple
  rw [if_neg (by omega), if_neg (by omega), run_bind_get, hfrom,
    run_bind_ok (run_pure _ _), run_bind_modify, ← hpool,
    Bitmap.all_eq (h.layout.bitCnt_lt r.user) hle hbits]
  rw [Bitmap.setMultiple_eq (h.layout.bitCnt_lt r.user) hle]
  exact congrArg (fun t => Except.ok ((), t)) (setMap_memset ..)

theorem ok_step {op : PallocOp} {s' : Allocs} (h : s.Ok) (hstep : s.step op = some s') : s'.Ok := by
  cases op with
  | get flags pageCnt =>
    rcases Nat.eq_zero_or_pos pageCnt with rfl | hcnt
    · cases hstep
      exact h
    · unfold step at hstep
      dsimp only at hstep
      rcases get_run h.layout flags hcnt with ⟨idx, t, hrun, ht, hle, hfree⟩ | ⟨hrun, -⟩
      · rw [hrun] at hstep
        cases hstep
        exact h.alloc ht hcnt hle hfree
      · rw [hrun] at hstep
        split_ifs at hstep
        cases hstep
        exact h
  | free r =>
    unfold step at hstep
    dsimp only at hstep
    split_ifs at hstep with hr
    obtain ⟨idx, t, hrun, hidx, ht⟩ := h.free_run hr
    rw [hrun] at hstep
    cases hstep
    exact h.release hr hidx ht

/-- A run of free pages in the pool. -/
def Run (s : Allocs) (user : Bool) (first cnt : ℕ) : Prop :=
  ∀ j < cnt, (s.palloc.pool user).Has (first + j) ∧ s.Free (first + j)

/-- What `palloc_get_multiple` and `palloc_free_multiple` guarantee. -/
structure Sound (s : Allocs) : Prop where
  disjoint : s.live.Pairwise fun r r' => ∀ page, r.Has page → ¬ r'.Has page
  inside : ∀ r ∈ s.live, r.pages % 4096 = 0 ∧ ∀ page, r.Has page → (s.palloc.pool r.user).Has page
  apart : ∀ r ∈ s.live, ∀ page, r.Has page →
    ¬ (s.palloc.pool (!r.user)).Has page ∧ ∀ user, ¬ (s.palloc.pool user).MapHas page
  /-- a run of free pages is found if there is one; else the result is `NULL`, or the call panics as
      the flags ask for it -/
  get : ∀ flags cnt, 0 < cnt →
    ((∃ first, s.Run flags.user first cnt) → ∃ pages t, (pallocGetMultiple flags cnt).run s.palloc = .ok (some pages, t)) ∧
    ((¬ ∃ first, s.Run flags.user first cnt) →
      (pallocGetMultiple flags cnt).run s.palloc = if flags.assert then .error .outOfPages else .ok (none, s.palloc))
  /-- exactly the pages that are freed are no longer in use -/
  free : ∀ r ∈ s.live, ∃ t, (pallocFreeMultiple r.pages r.cnt).run s.palloc = .ok ((), t) ∧
    ∀ user page, ((t.pool user).Has page ↔ (s.palloc.pool user).Has page) ∧
      ((s.palloc.pool user).Has page → ((t.pool user).bit page = true ↔ (s.palloc.pool user).bit page = true ∧ ¬ r.Has page))

theorem Ok.run_iff (h : s.Ok) (hcnt : 0 < cnt) : (∃ first, s.Run user first cnt) ↔
    ∃ k, k + cnt ≤ (s.palloc.pool user).usedMap.bitCnt ∧ ∀ j < cnt, (s.palloc.pool user).usedMap.bits (k + j) = false := by
  constructor
  · rintro ⟨first, hrun⟩
    have h0 := (hrun 0 hcnt).1
    have hlast := (hrun (cnt - 1) (by omega)).1
    unfold Pool.Has at h0 hlast
    refine ⟨first - pgNo (s.palloc.pool user).base, by omega, fun j hj => ?_⟩
    have hbit := (h.bit user _ (hrun j hj).1).2 (hrun j hj).2
    rwa [show first - pgNo (s.palloc.pool user).base + j = first + j - pgNo (s.palloc.pool user).base by omega]
  · rintro ⟨k, hle, hfree⟩
    refine ⟨pgNo (s.palloc.pool user).base + k, fun j hj => ?_⟩
    have hhas : (s.palloc.pool user).Has (pgNo (s.palloc.pool user).base + k + j) := by
      unfold Pool.Has
      omega
    refine ⟨hhas, (h.bit user _ hhas).1 ?_⟩
    unfold Pool.bit
    rw [show pgNo (s.palloc.pool user).base + k + j - pgNo (s.palloc.pool user).base = k + j by omega]
    exact hfree j hj

theorem Ok.sound (h : s.Ok) : s.Sound where
  disjoint := h.disjoint
  inside r hr := ⟨(h.aligned r hr).1, h.inside r hr⟩
  apart r hr page hpage := h.layout.apart (h.inside r hr page hpage)
  get flags cnt hcnt := by
    rw [h.run_iff hcnt]
    rcases get_run h.layout flags hcnt with ⟨idx, t, hrun, -, hle, hfree⟩ | ⟨hrun, hno⟩
    · exact ⟨fun _ => ⟨_, t, hrun⟩, fun hnone => absurd ⟨idx, hle, hfree⟩ hnone⟩
    · refine ⟨fun ⟨k, hle, hfree⟩ => ?_, fun _ => hrun⟩
      obtain ⟨j, hj, hbit⟩ := hno k hle
      rw [hfree j hj] at hbit
      cases hbit
  free r hr := by
    obtain ⟨idx, t, hrun, hidx, ht⟩ := h.free_run hr
    refine ⟨t, hrun, fun user page => ⟨by rw [ht.has], fun hpage => ?_⟩⟩
    rcases Bool.eq_or_eq_not user r.user with rfl | rfl
    · have hhas := has_range (s.palloc.pool r.user) r.user idx r.cnt page
      rw [← hidx] at hhas
      rw [ht.pool, bit_fill _ _ _ _ _ hpage.1]
      split_ifs with hin
      · exact ⟨nofun, fun hn => absurd (hhas.2 hin) hn.2⟩
      · exact ⟨fun hbit => ⟨hbit, fun hr => hin (hhas.1 hr)⟩, fun hn => hn.1⟩
    · rw [ht.other]
      refine ⟨fun hbit => ⟨hbit, fun hin => ?_⟩, fun hn => hn.1⟩
      exact (h.layout.apart (h.inside r hr page hin)).1 hpage

/-- **The page allocator** returns ranges of its pools that do not overlap, finds a range whenever
    there is one, and takes every range back. -/
theorem palloc_sound {initRamPages userPageLimit : ℕ} {junk : ℕ → Bool} {mem : ℕ → UInt8}
    (hinit : pallocInit initRamPages userPageLimit junk mem = .ok t) (h : Reaches step anyStep ⟨t, []⟩ s) : s.Sound :=
  (h.invariant (ok_init hinit) fun _ _ _ hok _ hstep => ok_step hok hstep).sound

/-- In 300 pages of memory, with at most 8 of them for the user: ranges from both pools, of which the
    first one is freed; its place is too small for the last request, which goes behind the others. -/
theorem palloc_sound_fragmented : ∃ t s, pallocInit 300 8 (fun _ => true) (fun _ => 0) = .ok t ∧
    Reaches step anyStep ⟨t, []⟩ s ∧
    s.live = [⟨false, 0xc0106000, 3⟩, ⟨true, 0xc0125000, 7⟩, ⟨false, 0xc0103000, 3⟩] ∧ s.Sound := by
  obtain ⟨t, hinit⟩ : ∃ t, pallocInit 300 8 (fun _ => true) (fun _ => 0) = .ok t := ⟨_, rfl⟩
  have hrun : ((pallocInit 300 8 (fun _ => true) (fun _ => 0)).toOption.bind fun t => (runList step anyStep ⟨t, []⟩
      [.get ⟨false, true, false⟩ 2, .get ⟨false, false, false⟩ 3, .get ⟨true, false, true⟩ 7, .get ⟨false, false, true⟩ 1,
        .free ⟨false, 0xc0101000, 2⟩, .get ⟨false, false, false⟩ 3]).map (·.live)) =
      some [⟨false, 0xc0106000, 3⟩, ⟨true, 0xc0125000, 7⟩, ⟨false, 0xc0103000, 3⟩] := by
    decide +kernel
  rw [hinit] at hrun
  obtain ⟨s, hs, hlive⟩ := Option.map_eq_some_iff.1 hrun
  exact ⟨t, s, hinit, runList_reaches hs, hlive, palloc_sound hinit (runList_reaches hs)⟩

end Allocs

end Pintos
