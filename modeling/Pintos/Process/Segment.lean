/-
  Loading a segment (`validate_segment`, `load_segment` and `setup_stack`, userprog/process.c).

  A page is taken, filled from the file, and mapped, or freed again; page after page a segment gets into
  memory.
-/
import Mathlib.Data.Nat.Bitwise
import Pintos.Fs.OneFile
import Pintos.Memory.Destroy
import Pintos.Process.Load

namespace Pintos.Process

open Lib Prog Function List

section
variable {p : Proc} {α : Type} {a : α}

theorem onPg_run {x : Paging.PgM α} {pg : Paging.State} (h : x.run p.pg = .ok (a, pg)) : (onPg x).run p = .ok (a, { p with pg }) :=
  zoom_run h

theorem onFs_run {x : FsM α} {fs : Fs} (h : x.run p.fs = .ok (a, fs)) : (onFs x).run p = .ok (a, { p with fs }) := zoom_run h

theorem onFs_returns {x : FsM α} {Q : α → Fs → Prop} (h : Prog.Returns x p.fs Q) :
    Prog.Returns (onFs x) p fun a t => ∃ fs, Q a fs ∧ t = { p with fs } := h.zoom

theorem onPg_returns {x : Paging.PgM α} {Q : α → Paging.State → Prop} (h : Prog.Returns x p.pg Q) :
    Prog.Returns (onPg x) p fun a t => ∃ pg, Q a pg ∧ t = { p with pg } := h.zoom

theorem assert_run {P : Prop} [Decidable P] (h : P) (p : Proc) : (assert P).run p = .ok ((), p) := by
  rw [assert, if_pos h]
  rfl

theorem uint32_run {x : ℤ} {n : ℕ} (h : x = n) (hn : n < 2 ^ 32) (p : Proc) : (uint32 x).run p = .ok (n, p) := by
  rw [uint32, if_pos (by omega), h]
  rfl

end

/-! ## The state while a program is loaded -/

/-- The pages of the allocator are in RAM. -/
def InRam (st : Paging.State) : Prop :=
  ∀ n user used q, st.pager.page n user used = some q → (q - physBase) / 4096 < st.initRamPages

theorem InRam.congr {st st' : Paging.State} (h : InRam st) (hsame : st.SameEnv st') : InRam st' := by
  intro n user used q hq
  rw [hsame.pager] at hq
  rw [hsame.initRamPages]
  exact h n user used q hq

/-- The page directory of the process is one of those that were made. -/
structure Loading (p : Proc) (dirs : List ℕ) (role : ℕ → Option Paging.Role) : Prop where
  ok : Paging.Ok ⟨p.pg, dirs⟩ role
  mem : p.pagedir ∈ dirs
  ram : InRam p.pg

/-- The page `k` was taken, and has no role yet. -/
structure Holds (p : Proc) (role : ℕ → Option Paging.Role) (k : ℕ) : Prop where
  page : Paging.IsPage k
  used : k ∈ p.pg.used
  role_eq : role k = none
  ne_init : k ≠ p.pg.initPageDir
  ram : (k - physBase) / 4096 < p.pg.initRamPages

/-- From `p`, where the pages `held` are not mapped yet, the process gets to `t`. -/
structure Goes (dirs : List ℕ) (p : Proc) (held : List ℕ) (t : Proc) (role' : ℕ → Option Paging.Role) (held' : List ℕ) : Prop where
  loading : Loading t dirs role'
  pagedir : t.pagedir = p.pagedir
  executableF : t.executableF = p.executableF
  owns : ∀ base, Paging.Owns p.pg p.pagedir held base → Paging.Owns t.pg t.pagedir held' base
  balanced : ∀ st0, Paging.Balanced st0 p.pg → Paging.Balanced st0 t.pg

/-- The pages of the process. -/
def Proc.pages (p : Proc) : Paging.PageMap := Paging.mapOf p.pg.mem p.pagedir

section
variable {p t u : Proc} {dirs held held' held'' : List ℕ} {role role' role'' : ℕ → Option Paging.Role} {k v : ℕ} {b : List UInt8}

theorem Loading.refl (h : Loading p dirs role) : Goes dirs p held p role held := ⟨h, rfl, rfl, fun _ ho => ho, fun _ hb => hb⟩

theorem Goes.trans (h : Goes dirs p held t role' held') (h' : Goes dirs t held' u role'' held'') : Goes dirs p held u role'' held'' :=
  ⟨h'.loading, h'.pagedir.trans h.pagedir, h'.executableF.trans h.executableF, fun base ho => h'.owns base (h.owns base ho),
    fun st0 hb => h'.balanced st0 (h.balanced st0 hb)⟩

section

variable (h : Loading p dirs role)
include h

theorem Loading.withFs (fs : Fs) : Goes dirs p held { p with fs } role held :=
  ⟨⟨h.ok, h.mem, h.ram⟩, rfl, rfl, fun _ ho => ho, fun _ hb => hb⟩

theorem Loading.called : Goes dirs p held { p with pg := p.pg.called } role held :=
  ⟨⟨h.ok.called, h.mem, h.ram⟩, rfl, rfl, fun _ ho => ho.congr rfl rfl, fun _ hb => hb.congr rfl rfl rfl⟩

theorem Loading.take (hfresh : k ∉ p.pg.used) (hpage : Paging.IsPage k)
    (hram : (k - physBase) / 4096 < p.pg.initRamPages) (hb : b.length ≤ 4096) :
    Goes dirs p [] { p with pg := (p.pg.called.take k).withMem (store p.pg.mem k b) } role [k] ∧
      Holds { p with pg := (p.pg.called.take k).withMem (store p.pg.mem k b) } role k ∧
      Proc.pages { p with pg := (p.pg.called.take k).withMem (store p.pg.mem k b) } = p.pages ∧
      Paging.KeepsFrames p.pg role ((p.pg.called.take k).withMem (store p.pg.mem k b)) role := by
  obtain ⟨hrole, hinit⟩ := h.ok.of_fresh hfresh
  obtain ⟨hok, hmaps⟩ := h.ok.store ((p.pg.called.take k).withMem (store p.pg.mem k b)) hpage hrole hinit hb rfl
    (fun q _ hq => mem_cons_of_mem _ hq) rfl
  refine ⟨⟨⟨hok, h.mem, h.ram⟩, rfl, rfl, fun base ho => ?_, fun _ hb => (hb.take k).congr rfl rfl rfl⟩,
    ⟨hpage, mem_cons_self, hrole, hinit, hram⟩, hmaps _ h.mem, ?_⟩
  · exact ho.take hfresh rfl (h.ok.owned_store h.mem hpage.aligned hrole hb)
  · intro q l hq
    refine hq.of_mem (Paging.slice_store_page hpage.aligned hq.aligned ?_ hb) (mem_cons_of_mem _ hq.used) hq.role_eq
    rintro rfl
    exact hfresh hq.used

theorem Loading.fill (hk : Holds p role k) (held : List ℕ) (hb : b.length ≤ 4096) :
    Goes dirs p held { p with pg := p.pg.withMem (store p.pg.mem k b) } role held ∧
      Holds { p with pg := p.pg.withMem (store p.pg.mem k b) } role k ∧
      Proc.pages { p with pg := p.pg.withMem (store p.pg.mem k b) } = p.pages ∧
      ∀ q l, q ≠ k → Paging.Frame p.pg role q l → Paging.Frame (p.pg.withMem (store p.pg.mem k b)) role q l := by
  obtain ⟨hok, hmaps⟩ := h.ok.store (p.pg.withMem (store p.pg.mem k b)) hk.page hk.role_eq hk.ne_init hb rfl
    (fun q _ hq => hq) rfl
  refine ⟨⟨⟨hok, h.mem, h.ram⟩, rfl, rfl, fun base ho => ?_, fun _ hb => hb.congr rfl rfl rfl⟩,
    ⟨hk.page, hk.used, hk.role_eq, hk.ne_init, hk.ram⟩, hmaps _ h.mem, ?_⟩
  · exact ho.congr rfl (h.ok.owned_store h.mem hk.page.aligned hk.role_eq hb)
  · intro q l hqk hq
    exact hq.of_mem (Paging.slice_store_page hk.page.aligned hq.aligned hqk hb) hq.used hq.role_eq

theorem Loading.free (hk : Holds p role k) :
    Prog.Returns (onPg (Paging.pallocFreePage k)) p fun _ t => Goes dirs p [k] t role [] ∧ t.fs = p.fs := by
  have hlen : (replicate 4096 (0xcc : UInt8)).length ≤ 4096 := by rw [length_replicate]
  obtain ⟨hok, -⟩ := h.ok.store ((p.pg.withMem (store p.pg.mem k (replicate 4096 0xcc))).free k) hk.page hk.role_eq hk.ne_init
    hlen rfl (fun q hne hq => (mem_erase_of_ne hne).2 hq) rfl
  have howned := h.ok.owned_store h.mem hk.page.aligned hk.role_eq hlen
  refine .of_run (onPg_run (Paging.pallocFreePage_run hk.page.le hk.used)) ⟨⟨⟨hok, h.mem, h.ram⟩, rfl, rfl, fun base ho => ⟨?_, ?_⟩,
    fun _ hb => Paging.Balanced.free (hb.congr rfl rfl rfl) hk.used⟩, rfl⟩
  · change (p.pg.used.erase k).Perm (Paging.owned (store p.pg.mem k _) p.pagedir ++ ([] ++ base))
    rw [howned]
    have hmiddle : p.pg.used.Perm (k :: (Paging.owned p.pg.mem p.pagedir ++ base)) := ho.used.trans perm_middle
    exact (hmiddle.erase k).trans (by rw [erase_cons_head, nil_append])
  · change (Paging.owned (store p.pg.mem k _) p.pagedir ++ []).Nodup
    rw [howned, append_nil]
    exact (nodup_append'.1 ho.nodup).1

theorem Loading.palloc (user zero : Bool) :
    (onPg (Paging.pallocGetPage user zero)).run p = .ok (none, { p with pg := p.pg.called }) ∨
    ∃ k b, b.length ≤ 4096 ∧ k ∉ p.pg.used ∧ Paging.IsPage k ∧ (k - physBase) / 4096 < p.pg.initRamPages ∧
      (onPg (Paging.pallocGetPage user zero)).run p =
        .ok (some k, { p with pg := (p.pg.called.take k).withMem (store p.pg.mem k b) }) := by
  rcases Paging.pallocGetPage_run p.pg user zero with ⟨-, hget⟩ | ⟨k, hfresh, hpage, hget⟩
  · exact .inl (onPg_run hget)
  · have hram := h.ram _ _ _ _ (Paging.page_of_pallocGetPage hget)
    refine .inr ⟨k, if zero then replicate 4096 0 else [], ?_, hfresh, hpage, hram, ?_⟩
    · cases zero with
      | false => exact Nat.zero_le _
      | true => exact length_replicate.le
    · refine (onPg_run hget).trans ?_
      cases zero with
      | false => rw [if_neg Bool.false_ne_true, if_neg Bool.false_ne_true, store_nil]
      | true => rw [if_pos rfl, if_pos rfl]

end

/-- The page `u` was not mapped, and is now mapped to `k`. -/
structure Maps (p : Proc) (role : ℕ → Option Paging.Role) (v k : ℕ) (writable : Bool) (t : Proc) (role' : ℕ → Option Paging.Role) :
    Prop where
  fresh : p.pages v = none
  pages : t.pages = update p.pages v (some (k, writable))
  keeps : Paging.KeepsFrames p.pg role t.pg role'

/-- **`install_page`** maps the page, unless it is mapped already or there is no page for a page table. -/
theorem Loading.install (h : Loading p dirs role) (hk : Holds p role k) (hv : v < 0xc0000) (writable : Bool) :
    Prog.Returns (installPage (4096 * v) k writable) p fun installed t => t.fs = p.fs ∧
      (installed = true → ∃ role', Goes dirs p [k] t role' [] ∧ Maps p role v k writable t role') ∧
      (installed = false → Goes dirs p [k] t role [k] ∧ Holds t role k) := by
  have hva : 4096 * v < physBase := by
    unfold physBase
    omega
  have hdiv : 4096 * v / 4096 = v := Nat.mul_div_cancel_left v (by decide)
  have hget := onPg_run (h.ok.get_run h.mem hva)
  rw [hdiv] at hget
  refine .bind_run (run_get p) (.bind_run hget ?_)
  cases hpage : Paging.mapOf p.pg.mem p.pagedir v with
  | some f => exact .pure ⟨rfl, nofun, fun _ => ⟨h.refl, hk⟩⟩
  | none =>
    rcases h.ok.set_run h.mem (Nat.mul_mod_right 4096 v) hva hk.page hk.ram (by rwa [hdiv]) writable with
      ⟨hrun, -⟩ | ⟨st, role', hrun, hok, hsame, hmaps, howns, hkeeps⟩
    · exact .of_run (onPg_run hrun) ⟨rfl, nofun, fun _ => ⟨h.called, hk.page, hk.used, hk.role_eq, hk.ne_init, hk.ram⟩⟩
    · refine .of_run (onPg_run hrun) ⟨rfl, fun _ => ⟨role', ⟨⟨hok, h.mem, h.ram.congr hsame⟩, rfl, rfl, howns, fun _ hb => ?_⟩, hpage, ?_,
        hkeeps⟩, nofun⟩
      · exact Paging.balanced_pagedirSetPage _ _ _ _ _ _ _ hb hrun
      · have hmap := congrFun hmaps p.pagedir
        rw [update_self, Paging.maps_of_mem h.mem, hdiv] at hmap
        exact Option.some.inj hmap

end

/-! ## Pages of a segment -/

section
variable {p t : Proc} {dirs : List ℕ} {role : ℕ → Option Paging.Role} {k v r pos file : ℕ} {c : List UInt8} {I : Fs → Prop}

/-- A page of the segment is mapped, with `r` bytes of the file and zeros. -/
structure PageLoaded (p : Proc) (role : ℕ → Option Paging.Role) (v k : ℕ) (writable : Bool) (l : List UInt8) (t : Proc)
    (role' : ℕ → Option Paging.Role) : Prop where
  fresh : p.pages v = none
  pages : t.pages = update p.pages v (some (k, writable))
  frame : Paging.Frame t.pg role' k l
  keeps : ∀ q l, q ≠ k → Paging.Frame p.pg role q l → Paging.Frame t.pg role' q l

/-- **Filling a page**: it is mapped with the bytes of the file, or freed. -/
theorem fillPage_returns (h : Loading p dirs role) (hk : Holds p role k) (hopen : OpenOn p.fs file c pos) (hI : FileFrame file I)
    (hs : I p.fs) (hv : v < 0xc0000) (hr : r ≤ 4096) (writable : Bool) :
    Prog.Returns (fillPage file (4096 * v) k r writable) p fun filled t => ∃ role', Goes dirs p [k] t role' [] ∧ I t.fs ∧
      (filled = true → ((c.drop pos).take r).length = r ∧ OpenOn t.fs file c (pos + r) ∧
        PageLoaded p role v k writable ((c.drop pos).take r ++ List.replicate (4096 - r) 0) t role') := by
  have hfree : ∀ {q : Proc}, Goes dirs p [k] q role [k] → Holds q role k → I q.fs →
      Prog.Returns (do onPg (Paging.pallocFreePage k); pure false : LoadM Bool) q fun filled t => ∃ role', Goes dirs p [k] t role' [] ∧
        I t.fs ∧ (filled = true → ((c.drop pos).take r).length = r ∧ OpenOn t.fs file c (pos + r) ∧
          PageLoaded p role v k writable ((c.drop pos).take r ++ replicate (4096 - r) 0) t role') := by
    intro q hq hkq hIq
    refine (hq.loading.free hkq).bind fun _ t ⟨ht, hfs⟩ => .pure ⟨role, hq.trans ht, hfs ▸ hIq, nofun⟩
  refine (onFs_returns (hopen.read r hI hs)).bind ?_
  rintro bytes - ⟨fs, ⟨hIfs, hopen', hprefix⟩, rfl⟩
  have hlen := hprefix.length_le
  rw [Int.toNat_natCast, length_take, length_drop] at hlen
  have hfs : Goes dirs p [k] { p with fs } role [k] := h.withFs fs
  have hkfs : Holds { p with fs } role k := ⟨hk.page, hk.used, hk.role_eq, hk.ne_init, hk.ram⟩
  have hwrite : ∀ (q : Proc) (a : ℕ) (l : List UInt8), (onPg (Paging.writeBytes a l)).run q =
      .ok ((), { q with pg := q.pg.withMem (store q.pg.mem a l) }) := fun _ _ _ => onPg_run rfl
  refine .bind_run (hwrite _ _ _) ?_
  by_cases hshort : bytes.length ≠ r
  · rw [if_pos hshort]
    obtain ⟨hgo, hkq, -, -⟩ := hfs.loading.fill hkfs [k] (show bytes.length ≤ 4096 by omega)
    exact hfree (hfs.trans hgo) hkq hIfs
  · rw [if_neg hshort]
    rw [not_not] at hshort
    -- the whole page is one list of bytes
    have hbytes : bytes = (c.drop pos).take r := by
      refine hprefix.eq_of_length ?_
      rw [Int.toNat_natCast, length_take, length_drop]
      omega
    set l := (c.drop pos).take r ++ replicate (4096 - r) 0 with hl
    have hlength : l.length = 4096 := by
      rw [hl, length_append, ← hbytes, hshort, length_replicate]
      omega
    have hstore : store (store p.pg.mem k bytes) (k + r) (replicate (pgSize - r) 0) = store p.pg.mem k l := by
      rw [hl, store_append, ← hbytes, hshort]
      rfl
    obtain ⟨hgo, hkq, hpages, hkeeps⟩ := hfs.loading.fill hkfs [k] hlength.le
    refine .bind_run (hwrite _ _ _) ?_
    dsimp only [Paging.State.withMem]
    rw [hstore]
    refine (hgo.loading.install hkq hv writable).bind ?_
    rintro installed q ⟨hqfs, htrue, hfalse⟩
    cases installed with
    | false =>
      obtain ⟨hgo', hkq'⟩ := hfalse rfl
      exact hfree ((hfs.trans hgo).trans hgo') hkq' (hqfs ▸ hIfs)
    | true =>
      obtain ⟨role', hgo', hfresh, hmap, hkeeps'⟩ := htrue rfl
      rw [hpages] at hfresh hmap
      refine .pure ⟨role', (hfs.trans hgo).trans hgo', hqfs ▸ hIfs, fun _ => ⟨hbytes ▸ hshort, ?_, hfresh, hmap, ?_, fun q l hne hq => ?_⟩⟩
      · rw [hqfs]
        rw [hshort] at hopen'
        exact hopen'
      · refine hkeeps' ⟨hk.page.aligned, hk.used, hk.role_eq, ?_⟩
        refine Eq.trans ?_ (slice_store_self (f := p.pg.mem) (a := k))
        rw [hlength]
        rfl
      · exact hkeeps' (hkeeps q l hne hq)

/-- The pages from `v` on, `n` of them, are mapped with the bytes `g`. -/
structure PagesLoaded (p : Proc) (role : ℕ → Option Paging.Role) (v n : ℕ) (writable : Bool) (g : ℕ → UInt8) (t : Proc)
    (role' : ℕ → Option Paging.Role) : Prop where
  fresh : ∀ j < n, p.pages (v + j) = none
  mapped : ∀ j < n, ∃ k, t.pages (v + j) = some (k, writable) ∧ Paging.Frame t.pg role' k (slice g (4096 * j) 4096)
  other : ∀ u, (∀ j < n, u ≠ v + j) → t.pages u = p.pages u
  keeps : Paging.KeepsFrames p.pg role t.pg role'

/-- The bytes of the file that are read for a segment, and zeros behind them. -/
def fileBytes (c : List UInt8) (pos readBytes : ℕ) : ℕ → UInt8 := fun i => ((c.drop pos).take readBytes)[i]?.getD 0

theorem fileBytes_first {readBytes : ℕ} (hr : r = min readBytes 4096) (hlen : ((c.drop pos).take r).length = r) :
    (c.drop pos).take r ++ List.replicate (4096 - r) 0 = slice (fileBytes c pos readBytes) 0 4096 := by
  apply ext_getElem?
  intro i
  rw [getElem?_slice, Nat.zero_add]
  by_cases hi : i < 4096
  · rw [if_pos hi, fileBytes]
    by_cases hir : i < r
    · rw [getElem?_append_left (by omega), getElem?_take_of_lt hir, getElem?_take_of_lt (by omega)]
      obtain ⟨x, hx⟩ : ∃ x, (c.drop pos)[i]? = some x := by
        rw [length_take] at hlen
        exact ⟨_, getElem?_eq_getElem (by omega)⟩
      rw [hx, Option.getD_some]
    · rw [getElem?_append_right (by omega), hlen, getElem?_replicate, if_pos (by omega),
        getElem?_eq_none (by rw [length_take]; omega), Option.getD_none]
  · rw [if_neg hi, getElem?_eq_none]
    rw [length_append, hlen, length_replicate]
    omega

theorem fileBytes_rest {readBytes : ℕ} (hr : r = min readBytes 4096) (i : ℕ) :
    fileBytes c pos readBytes (4096 + i) = fileBytes c (pos + r) (readBytes - r) i := by
  unfold fileBytes
  by_cases hi : 4096 + i < readBytes
  · rw [getElem?_take_of_lt hi, getElem?_take_of_lt (by omega), getElem?_drop, getElem?_drop]
    congr 2
    omega
  · rw [getElem?_eq_none (by rw [length_take]; omega), getElem?_eq_none (by rw [length_take]; omega)]

theorem PageLoaded.cons {n : ℕ} {writable : Bool} {g g' : ℕ → UInt8} {q : Proc} {role' role'' : ℕ → Option Paging.Role}
    (h : PageLoaded p role v k writable (slice g 0 4096) q role') (h' : PagesLoaded q role' (v + 1) n writable g' t role'')
    (hfresh : k ∉ p.pg.used) (hg : ∀ i, g (4096 + i) = g' i) : PagesLoaded p role v (n + 1) writable g t role'' := by
  have hold : ∀ {u}, u ≠ v → q.pages u = p.pages u := by
    intro u hu
    rw [h.pages, update_of_ne hu]
  have hfirst : t.pages v = some (k, writable) := by
    rw [h'.other v fun j _ => by omega, h.pages, update_self]
  refine ⟨fun j hj => ?_, fun j hj => ?_, fun u hu => ?_, fun {q' l} hq => ?_⟩
  · cases j with
    | zero => exact h.fresh
    | succ j =>
      have := h'.fresh j (by omega)
      rwa [hold (by omega), show v + 1 + j = v + (j + 1) by omega] at this
  · cases j with
    | zero => exact ⟨k, hfirst, h'.keeps h.frame⟩
    | succ j =>
      obtain ⟨k', hk', hframe⟩ := h'.mapped j (by omega)
      refine ⟨k', by rw [← hk']; congr 1; omega, ?_⟩
      have hslice : slice g' (4096 * j) 4096 = slice g (4096 * (j + 1)) 4096 := by
        apply ext_getElem?
        intro i
        rw [getElem?_slice, getElem?_slice, ← hg, show 4096 + (4096 * j + i) = 4096 * (j + 1) + i by omega]
      rwa [← hslice]
  · rw [h'.other u fun j hj => ?_, hold ?_]
    · exact hu 0 (by omega)
    · have := hu (j + 1) (by omega)
      omega
  · refine h'.keeps (h.keeps q' l ?_ hq)
    rintro rfl
    exact hfresh hq.used

/-- **The loop of `load_segment`** maps its pages, or fails. -/
theorem loadPages_returns (hI : FileFrame file I) (writable : Bool) :
    ∀ (n v readBytes zeroBytes pos : ℕ) (p : Proc) (role : ℕ → Option Paging.Role), Loading p dirs role → OpenOn p.fs file c pos →
      I p.fs → readBytes + zeroBytes = 4096 * n → v + n ≤ 0xc0000 →
      Prog.Returns (loadPages file writable n (4096 * v) readBytes zeroBytes) p fun loaded t => ∃ role', Goes dirs p [] t role' [] ∧
        I t.fs ∧ (loaded = true → ((c.drop pos).take readBytes).length = readBytes ∧
          PagesLoaded p role v n writable (fileBytes c pos readBytes) t role')
  | 0, v, readBytes, zeroBytes, pos, p, role, h, hopen, hs, hsum, _ => by
    unfold loadPages
    rw [if_neg (by omega)]
    obtain rfl : readBytes = 0 := by omega
    refine .pure ⟨role, h.refl, hs, fun _ => ⟨by simp, nofun, nofun, fun _ _ => rfl, fun hq => hq⟩⟩
  | n + 1, v, readBytes, zeroBytes, pos, p, role, h, hopen, hs, hsum, hv => by
    unfold loadPages
    rw [if_pos (by omega)]
    dsimp only
    set r := if readBytes < pgSize then readBytes else pgSize with hr
    have hmin : r = min readBytes 4096 := by
      rw [hr]
      split <;> unfold pgSize at * <;> omega
    rcases h.palloc true false with hnone | ⟨k, b, hb, hfresh, hpage, hram, hsome⟩
    · exact .bind_run hnone (.pure ⟨role, h.called, hs, nofun⟩)
    · obtain ⟨hgo, hk, hpages, hkeeps⟩ := h.take hfresh hpage hram hb
      refine .bind_run hsome ((fillPage_returns hgo.loading hk hopen hI hs (show v < 0xc0000 by omega) (show r ≤ 4096 by omega)
        writable).bind ?_)
      rintro filled q ⟨role', hgo', hIq, hfilled⟩
      cases filled with
      | false => exact .pure ⟨role', hgo.trans hgo', hIq, nofun⟩
      | true =>
        obtain ⟨hlen, hopen', hpage'⟩ := hfilled rfl
        rw [if_pos rfl]
        have hread : (uint32 (readBytes - r)).run q = .ok (readBytes - r, q) := uint32_run (by omega) (by omega) q
        have hzero : (uint32 (zeroBytes - (pgSize - r : ℕ))).run q = .ok (zeroBytes - (pgSize - r), q) :=
          uint32_run (by unfold pgSize; omega) (by omega) q
        refine .bind_run hread (.bind_run hzero ?_)
        have hup : addr (4096 * v + pgSize) = 4096 * (v + 1) := by
          unfold addr pgSize
          omega
        rw [hup]
        refine (loadPages_returns hI writable n (v + 1) (readBytes - r) (zeroBytes - (pgSize - r)) (pos + r) q role' hgo'.loading hopen' hIq
          (by unfold pgSize; omega) (by omega)).mono ?_
        rintro loaded t ⟨role'', hgo'', hIt, hloaded⟩
        refine ⟨role'', (hgo.trans hgo').trans hgo'', hIt, fun hl => ?_⟩
        obtain ⟨hlen', hpages'⟩ := hloaded hl
        refine ⟨?_, ?_⟩
        · rw [length_take, length_drop] at hlen hlen' ⊢
          omega
        · have hfirst : PageLoaded p role v k writable (slice (fileBytes c pos readBytes) 0 4096) q role' := by
            rw [← fileBytes_first hmin hlen]
            exact ⟨hpages ▸ hpage'.fresh, hpages ▸ hpage'.pages, hpage'.frame, fun q' l hne hq => hpage'.keeps q' l hne (hkeeps hq)⟩
          exact hfirst.cons hpages' hfresh (fileBytes_rest hmin)

end

/-! ## Segments that are accepted -/

/-- What `validate_segment` checks, for a file of `length` bytes. -/
structure Phdr.Accepted (phdr : Phdr) (length : ℕ) : Prop where
  aligned : phdr.offset % 4096 = phdr.vaddr % 4096
  offset_le : phdr.offset ≤ length
  filesz_le : phdr.filesz ≤ phdr.memsz
  memsz_pos : 0 < phdr.memsz
  end_lt : phdr.vaddr + phdr.memsz < physBase
  vaddr_ge : 4096 ≤ phdr.vaddr

/-- The pages of a segment. -/
def Phdr.pageCount (phdr : Phdr) : ℕ := (phdr.vaddr % 4096 + phdr.memsz + 4095) / 4096

/-- The bytes that are read for a segment, from the start of its first page on. -/
def Phdr.readBytes (phdr : Phdr) : ℕ := if 0 < phdr.filesz then phdr.vaddr % 4096 + phdr.filesz else 0

section
variable {p q t : Proc} {dirs : List ℕ} {role role' : ℕ → Option Paging.Role} {pos file length : ℕ} {c : List UInt8} {phdr : Phdr}
  {I : Fs → Prop}

theorem Phdr.accepted_of_valid {b : List UInt8} (haligned : pgOfs (Phdr.ofBytes b).offset = pgOfs (Phdr.ofBytes b).vaddr)
    (h : (Phdr.ofBytes b).valid length = true) : (Phdr.ofBytes b).Accepted length := by
  have hvaddr : (Phdr.ofBytes b).vaddr < 2 ^ 32 := toWord_lt _
  have hmemsz : (Phdr.ofBytes b).memsz < 2 ^ 32 := toWord_lt _
  unfold Phdr.valid at h
  split_ifs at h with hoffset hfilesz hzero hstart hend hwrap hpage
  unfold pgOfs pgSize at haligned
  unfold addr physBase at hend
  unfold addr at hwrap
  unfold pgSize at hpage
  refine ⟨haligned, by omega, by omega, by omega, ?_, by omega⟩
  unfold physBase
  omega

/-- **`validate_segment`** changes nothing. -/
theorem validateSegment_returns (b : List UInt8) (hopen : OpenOn p.fs file c pos) :
    Prog.Returns (validateSegment (Phdr.ofBytes b) file) p fun accepted t =>
      t = p ∧ (accepted = true → (Phdr.ofBytes b).Accepted c.length) := by
  unfold validateSegment
  by_cases haligned : pgOfs (Phdr.ofBytes b).offset ≠ pgOfs (Phdr.ofBytes b).vaddr
  · rw [if_pos haligned]
    exact .pure ⟨rfl, nofun⟩
  · obtain ⟨hlength, hlt⟩ := hopen.length
    rw [if_neg haligned]
    refine .bind_run (onFs_run hlength) (.pure ⟨rfl, fun hvalid => Phdr.accepted_of_valid (not_not.1 haligned) ?_⟩)
    have hnat : ((c.length : ℤ) % 2 ^ 32).toNat = c.length := by omega
    rwa [hnat] at hvalid

theorem roundUp_run {x : ℕ} (h : x < physBase) (p : Proc) : (roundUp x pgSize).run p = .ok (4096 * ((x + 4095) / 4096), p) := by
  unfold physBase at h
  have hsum : (uint32 (x + pgSize)).run p = .ok (x + 4096, p) := uint32_run (by unfold pgSize; omega) (by omega) p
  have hpred : (uint32 ((x + 4096 : ℕ) - 1)).run p = .ok (x + 4095, p) := uint32_run (by omega) (by omega) p
  unfold roundUp
  rw [run_bind_ok hsum, run_bind_ok hpred]
  exact uint32_run (by unfold pgSize; omega) (by omega) p

theorem Phdr.Accepted.readBytes_le (h : phdr.Accepted length) : phdr.readBytes ≤ 4096 * phdr.pageCount := by
  have hfilesz := h.filesz_le
  unfold Phdr.readBytes Phdr.pageCount
  split_ifs <;> omega

/-- **The sizes of a segment** do not wrap around. -/
theorem segmentBytes_run (h : phdr.Accepted length) (p : Proc) :
    (segmentBytes phdr).run p = .ok ((phdr.readBytes, 4096 * phdr.pageCount - phdr.readBytes), p) := by
  have hfilesz := h.filesz_le
  have hend := h.end_lt
  have hle := h.readBytes_le
  unfold physBase at hend
  have hsum : (uint32 (pgOfs phdr.vaddr + phdr.memsz)).run p = .ok (phdr.vaddr % 4096 + phdr.memsz, p) :=
    uint32_run (by unfold pgOfs pgSize; omega) (by omega) p
  have hround := roundUp_run (show phdr.vaddr % 4096 + phdr.memsz < physBase by unfold physBase; omega) p
  unfold segmentBytes
  by_cases hpos : 0 < phdr.filesz
  · have hread : phdr.readBytes = phdr.vaddr % 4096 + phdr.filesz := if_pos hpos
    have hbytes : (uint32 (pgOfs phdr.vaddr + phdr.filesz)).run p = .ok (phdr.readBytes, p) :=
      uint32_run (by rw [hread]; unfold pgOfs pgSize; omega) (by omega) p
    have hzero : (uint32 ((4096 * phdr.pageCount : ℕ) - phdr.readBytes)).run p =
        .ok (4096 * phdr.pageCount - phdr.readBytes, p) := uint32_run (by omega) (by unfold Phdr.pageCount; omega) p
    rw [if_pos hpos, run_bind_ok hbytes, run_bind_ok hsum, run_bind_ok hround]
    exact run_bind_ok hzero
  · have hread : phdr.readBytes = 0 := if_neg hpos
    rw [if_neg hpos, run_bind_ok hsum, run_bind_ok hround, hread]
    rfl

/-- **The case `PT_LOAD`** for a segment that is accepted. -/
theorem loadValid_returns (hacc : phdr.Accepted c.length) (h : Loading p dirs role) (hopen : OpenOn p.fs file c pos)
    (hI : FileFrame file I) (hs : I p.fs) :
    Prog.Returns (loadValid phdr file) p fun loaded t => ∃ role', Goes dirs p [] t role' [] ∧ I t.fs ∧ (loaded = true →
      ((c.drop (phdr.offset - phdr.offset % 4096)).take phdr.readBytes).length = phdr.readBytes ∧
      PagesLoaded p role (phdr.vaddr / 4096) phdr.pageCount phdr.writable
        (fileBytes c (phdr.offset - phdr.offset % 4096) phdr.readBytes) t role') := by
  have hlt := hopen.length.2
  have hoffset := hacc.offset_le
  have hle := hacc.readBytes_le
  have hend := hacc.end_lt
  unfold physBase at hend
  have hcount : phdr.vaddr / 4096 + phdr.pageCount ≤ 0xc0000 := by
    unfold Phdr.pageCount
    omega
  set filePage := phdr.offset - phdr.offset % 4096 with hfilePage
  have hofs : Int.bmod filePage (2 ^ 32) = filePage := Int.bmod_eq_of_le (by omega) (by omega)
  have hmemPage : phdr.vaddr - pgOfs phdr.vaddr = 4096 * (phdr.vaddr / 4096) := by
    unfold pgOfs pgSize
    omega
  have htotal : (uint32 (phdr.readBytes + (4096 * phdr.pageCount - phdr.readBytes : ℕ))).run p = .ok (4096 * phdr.pageCount, p) :=
    uint32_run (by omega) (by omega) p
  refine .bind_run (segmentBytes_run hacc p) ?_
  dsimp only
  rw [show phdr.offset - pgOfs phdr.offset = filePage from rfl, hofs, hmemPage]
  refine .bind_run htotal (.bind_run (assert_run (Nat.mul_mod_right 4096 _) p) (.bind_run (assert_run (Nat.mul_mod_right 4096 _) p)
    (.bind_run (assert_run ?_ p) ?_)))
  · rw [Int.tmod_eq_emod_of_nonneg (by omega)]
    unfold pgSize
    omega
  · refine (onFs_returns (hopen.seek (by omega) hI hs)).bind ?_
    rintro - - ⟨fs, ⟨hIfs, hopen'⟩, rfl⟩
    rw [show 4096 * phdr.pageCount / pgSize = phdr.pageCount from Nat.mul_div_cancel_left _ (by decide)]
    have hgo : Goes dirs p [] { p with fs } role [] := h.withFs fs
    refine (loadPages_returns hI phdr.writable phdr.pageCount (phdr.vaddr / 4096) phdr.readBytes _ filePage { p with fs } role
      hgo.loading hopen' hIfs (by omega) hcount).mono ?_
    rintro loaded t ⟨role', hgo', hIt, hloaded⟩
    refine ⟨role', hgo.trans hgo', hIt, fun hl => ?_⟩
    obtain ⟨hlen, hpages⟩ := hloaded hl
    exact ⟨hlen, hpages.fresh, hpages.mapped, hpages.other, hpages.keeps⟩

end

/-! ## The segment in memory -/

/-- The byte of the process at an address, if its page is mapped. -/
def Proc.userByte (p : Proc) (a : ℕ) : Option UInt8 := (p.pages (a / 4096)).map fun f => p.pg.mem (f.1 + a % 4096)

/-- The page `u` covers a part of the segment. -/
def Phdr.Covers (phdr : Phdr) (u : ℕ) : Prop := ∃ a, phdr.vaddr ≤ a ∧ a < phdr.vaddr + phdr.memsz ∧ a / 4096 = u

/-- The segment of the file `l` is in the memory of `t`, and was not in that of `p`. -/
structure SegmentLoaded (p t : Proc) (phdr : Phdr) (l : List UInt8) : Prop where
  mapped : ∀ u, (p.pages u = none ∧ t.pages u ≠ none) ↔ phdr.Covers u
  other : ∀ u, ¬ phdr.Covers u → t.pages u = p.pages u
  user : ∀ u, phdr.Covers u → 0 < u ∧ 4096 * (u + 1) ≤ physBase
  writable : ∀ u, phdr.Covers u → ∃ k w, t.pages u = some (k, w) ∧ (w = true ↔ phdr.flags.testBit 1 = true)
  file : ∀ k < phdr.filesz, ∃ b, l[phdr.offset + k]? = some b ∧ t.userByte (phdr.vaddr + k) = some b
  zero : ∀ a, phdr.vaddr + phdr.filesz ≤ a → a < phdr.vaddr + phdr.memsz ∨ phdr.Covers (a / 4096) → t.userByte a = some 0

section
variable {p q t : Proc} {dirs : List ℕ} {role role' : ℕ → Option Paging.Role} {pos file length v n a u : ℕ} {c : List UInt8}
  {phdr : Phdr} {w : Bool} {g : ℕ → UInt8}

theorem PagesLoaded.byte (h : PagesLoaded p role v n w g t role') (hle : 4096 * v ≤ a) (hlt : a < 4096 * (v + n)) :
    t.userByte a = some (g (a - 4096 * v)) := by
  obtain ⟨k, hk, hframe⟩ := h.mapped (a / 4096 - v) (by omega)
  rw [show v + (a / 4096 - v) = a / 4096 by omega] at hk
  have hbyte := congrArg (·[a % 4096]?) hframe.bytes
  simp only [getElem?_slice, Nat.mod_lt a (show 0 < 4096 by decide), if_true] at hbyte
  rw [Proc.userByte, hk, Option.map_some, hbyte]
  congr 2
  omega

theorem Phdr.Accepted.covers_iff (h : phdr.Accepted length) :
    phdr.Covers u ↔ phdr.vaddr / 4096 ≤ u ∧ u < phdr.vaddr / 4096 + phdr.pageCount := by
  have hpos := h.memsz_pos
  unfold Phdr.pageCount
  constructor
  · rintro ⟨a, hle, hlt, rfl⟩
    omega
  · rintro ⟨hle, hlt⟩
    by_cases hfirst : u = phdr.vaddr / 4096
    · exact ⟨phdr.vaddr, le_rfl, by omega, hfirst.symm⟩
    · exact ⟨4096 * u, by omega, by omega, by omega⟩

theorem fileBytes_of_le {r i : ℕ} (h : r ≤ i) : fileBytes c pos r i = 0 := by
  rw [fileBytes, getElem?_eq_none (by rw [length_take]; omega), Option.getD_none]

theorem fileBytes_of_lt {l : List UInt8} {r i : ℕ} (hlen : ((l.drop pos).take r).length = r) (h : i < r) : l[pos + i]? = some (fileBytes l pos r i) := by
  rw [length_take, length_drop] at hlen
  rw [fileBytes, getElem?_take_of_lt h, getElem?_drop, getElem?_eq_getElem (by omega), Option.getD_some]

theorem Phdr.writable_iff : phdr.writable = true ↔ phdr.flags.testBit 1 = true := by
  rw [Phdr.writable, bne_iff_ne, show (2 : ℕ) = 2 ^ 1 from rfl, Nat.and_two_pow]
  cases phdr.flags.testBit 1 <;> decide

theorem Phdr.Accepted.segmentLoaded (hacc : phdr.Accepted length)
    (hlen : ((c.drop (phdr.offset - phdr.offset % 4096)).take phdr.readBytes).length = phdr.readBytes)
    (h : PagesLoaded p role (phdr.vaddr / 4096) phdr.pageCount phdr.writable
      (fileBytes c (phdr.offset - phdr.offset % 4096) phdr.readBytes) t role') : SegmentLoaded p t phdr c := by
  have haligned := hacc.aligned
  have hend := hacc.end_lt
  have hge := hacc.vaddr_ge
  have hle := hacc.filesz_le
  unfold physBase at hend
  have hindex : ∀ {u}, phdr.Covers u → ∃ j < phdr.pageCount, u = phdr.vaddr / 4096 + j := by
    intro u hu
    obtain ⟨hle, hlt⟩ := hacc.covers_iff.1 hu
    exact ⟨u - phdr.vaddr / 4096, by omega, by omega⟩
  have hother : ∀ {u}, ¬ phdr.Covers u → t.pages u = p.pages u := by
    intro u hu
    refine h.other u fun j hj he => hu (hacc.covers_iff.2 ?_)
    omega
  refine ⟨fun u => ⟨fun hu => ?_, fun hu => ?_⟩, fun u hu => hother hu, fun u hu => ?_, fun u hu => ?_, fun k hk => ?_, fun a ha hcov => ?_⟩
  · by_contra hcov
    exact hu.2 ((hother hcov).trans hu.1)
  · obtain ⟨j, hj, rfl⟩ := hindex hu
    obtain ⟨k, hk, -⟩ := h.mapped j hj
    refine ⟨h.fresh j hj, ?_⟩
    rw [hk]
    exact Option.some_ne_none _
  · obtain ⟨a, hav, hlt, rfl⟩ := hu
    unfold physBase
    omega
  · obtain ⟨j, hj, rfl⟩ := hindex hu
    obtain ⟨k, hk, -⟩ := h.mapped j hj
    exact ⟨k, phdr.writable, hk, Phdr.writable_iff⟩
  · have hread : phdr.readBytes = phdr.vaddr % 4096 + phdr.filesz := if_pos (by omega)
    have hbyte := fileBytes_of_lt hlen (show phdr.vaddr % 4096 + k < phdr.readBytes by omega)
    rw [show phdr.offset - phdr.offset % 4096 + (phdr.vaddr % 4096 + k) = phdr.offset + k by omega] at hbyte
    refine ⟨_, hbyte, ?_⟩
    rw [h.byte (by omega) (by unfold Phdr.pageCount; omega)]
    congr 2
    omega
  · have hpage : phdr.Covers (a / 4096) := hcov.elim (fun hlt => ⟨a, by omega, hlt, rfl⟩) id
    obtain ⟨hpage, hlast⟩ := hacc.covers_iff.1 hpage
    rw [h.byte (by omega) (by omega), fileBytes_of_le]
    unfold Phdr.readBytes
    split_ifs <;> omega

end

/-- **Loading a segment** that `validate_segment` accepts never faults: its sizes do not wrap around, the assertions of
`load_segment` hold and its loop ends.  If it succeeds, the pages that the header asks for are mapped, with the bytes of
the file and zeros. -/
theorem segment_loaded {p q : Proc} {dirs : List ℕ} {role : ℕ → Option Paging.Role} {file pos : ℕ} {c : List UInt8} (header : List UInt8)
    (h : Loading p dirs role) (hopen : OpenOn p.fs file c pos)
    (hvalid : (validateSegment (Phdr.ofBytes header) file).run p = .ok (true, q)) :
    Prog.Returns (loadValid (Phdr.ofBytes header) file) q fun loaded t =>
      loaded = true → SegmentLoaded q t (Phdr.ofBytes header) c := by
  obtain ⟨accepted, t, hrun, rfl, hacc⟩ := validateSegment_returns header hopen
  obtain ⟨rfl, rfl⟩ := ok_inj (hrun.symm.trans hvalid)
  have hframe : FileFrame file fun _ => True := ⟨fun _ _ => trivial, fun _ _ _ => trivial⟩
  refine (loadValid_returns (hacc rfl) h hopen hframe trivial).mono ?_
  rintro loaded t ⟨role', -, -, hloaded⟩ hl
  obtain ⟨hlen, hpages⟩ := hloaded hl
  exact (hacc rfl).segmentLoaded hlen hpages

/-- A machine with an empty page directory, and a file of 100 bytes that is open. -/
def oneSegment : Proc where
  pg := { mem := fun _ => 0, pager := Paging.pagesInOrder, calls := 2, used := [physBase + 8192, physBase + 4096],
          taken := [physBase + 8192, physBase + 4096], freed := [], initPageDir := physBase + 4096, initRamPages := 1024 }
  fs := { disk := UInt8.ofNat, size := 8, freeMap := ⟨8, fun _ => true⟩, freeMapFile := none, openInodes := [0],
          inodes := Heap.empty.alloc ⟨2, 1, false, 0, ⟨3, 100, inodeMagic⟩⟩, files := Heap.empty.alloc ⟨0, 0, false⟩,
          memory := fun _ => true }
  pagedir := physBase + 8192
  executableF := none

theorem oneSegment_loading : Loading oneSegment [physBase + 8192] fun p => if p = physBase + 8192 then some .dir else none := by
  have hword : ∀ p i, Paging.pageWord oneSegment.pg.mem p i = 0 := fun _ _ => rfl
  have hdir : Paging.IsPage (physBase + 8192) := ⟨by decide, by decide, by decide⟩
  refine ⟨⟨?_, by decide, ⟨by decide, by decide, by decide⟩, by decide, fun i _ => hword _ i, ?_, fun _ _ => .inl (hword _ _), ?_,
    fun _ _ _ => rfl⟩, mem_cons_self, ?_⟩
  · intro p r hp
    split_ifs at hp with he
    rw [he]
    exact ⟨mem_cons_self, hdir⟩
  · intro pd hpd
    exact if_pos (mem_singleton.1 hpd)
  · intro pt pd i j hrole
    split_ifs at hrole
    cases Option.some.inj hrole
  · intro n user used q hq
    obtain ⟨hn, he⟩ := (Option.ite_none_right_eq_some).1 hq
    cases he
    change (physBase + 4096 * (n + 1) - physBase) / 4096 < 1024
    omega

theorem oneSegment_openOn : OpenOn oneSegment.fs 0 (slice UInt8.ofNat 1536 100) 0 :=
  ⟨⟨0, 0, false⟩, ⟨2, 1, false, 0, ⟨3, 100, inodeMagic⟩⟩, rfl, rfl, rfl, ⟨by decide, by decide, by decide, by decide⟩,
    by rw [length_slice]; rfl, by rw [length_slice]; rfl⟩

/-- A segment of 5000 bytes, 80 of them from the file; its address is not that of a page. -/
def segmentHeader : List UInt8 :=
  ofWord 1 ++ ofWord 16 ++ ofWord 0x8048010 ++ ofWord 0 ++ ofWord 80 ++ ofWord 5000 ++ ofWord 6 ++ ofWord 4096

theorem segment_loaded_two_pages : ∃ t, (loadValid (Phdr.ofBytes segmentHeader) 0).run oneSegment = .ok (true, t) ∧
    SegmentLoaded oneSegment t (Phdr.ofBytes segmentHeader) (slice UInt8.ofNat 1536 100) := by
  have hvalid : (validateSegment (Phdr.ofBytes segmentHeader) 0).run oneSegment = .ok (true, oneSegment) := rfl
  obtain ⟨loaded, t, hrun, hloaded⟩ := segment_loaded segmentHeader oneSegment_loading oneSegment_openOn hvalid
  have htrue : ((loadValid (Phdr.ofBytes segmentHeader) 0).run oneSegment).toOption.map Prod.fst = some true := by decide +kernel
  rw [hrun] at htrue
  obtain rfl : loaded = true := Option.some.inj htrue
  exact ⟨t, hrun, hloaded rfl⟩

end Pintos.Process
