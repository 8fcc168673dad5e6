/-
  Parents and their records of children.

  A thread's `pt` is to refer to a live parent, with one record of the child on its `sub_threads`.  Of every
  thread only its `tid`, its `pt` and the pids of its records matter for this (`Link`).
-/
import Pintos.WaitStatus

namespace Pintos

open Lib Function List

/-- What a live thread's `pt` is to be: null, or a live thread with one record of this one. -/
structure LinksOk (s : Threads) : Prop where
  parent : ∀ p ∈ s.allList, ∀ t, s.mem p = some t → ∀ q, t.pt = some q →
    q ∈ s.allList ∧ ∃ u, s.mem q = some u ∧ (u.subThreads.countP fun r => r.pid = t.tid) = 1
  /-- no store of `exit` went astray -/
  intact : s.corrupted = false

/-- `process_execute` can allocate the record of a thread it creates, and `next_tid` does not
    wrap; the loop of `exit` overwrites no memory in use; and a thread leaves `all_list` after its
    children. -/
def LinkOk (s : Threads) : Label → Prop
  | .execute _ fnCopy page rec => (fnCopy = true → page.isSome = true → rec.isSome = true) ∧ s.nextTid < 2 ^ 31 - 1
  | .exit _ _ hits => hits = false
  | .advance p => (s.mem p).any (fun t => t.pc == .exitRemove) = true →
      (s.allList.all fun q => !(s.mem q).any fun t => t.pt == some p) = true
  | _ => True

instance : ∀ (s : Threads) (l : Label), Decidable (LinkOk s l)
  | _, .execute _ fnCopy page rec =>
    inferInstanceAs (Decidable ((fnCopy = true → page.isSome = true → rec.isSome = true) ∧ _ < _))
  | _, .exit _ _ _ => inferInstanceAs (Decidable (_ = _))
  | _, .advance _ => inferInstanceAs (Decidable (_ → _))
  | _, .kill _ | _, .invalid _ | _, .wait .. | _, .sleep _ | _, .wake .. => isTrue trivial

/-! ## The view -/

structure Link where
  tid : ℤ
  pt : Option Page
  pids : List ℤ

def Thread.link (t : Thread) : Link := ⟨t.tid, t.pt, t.subThreads.map (·.pid)⟩

def Threads.links (s : Threads) : Page → Option Link := fun p => (s.mem p).map Thread.link

theorem Thread.setExit_link (t : Thread) (pid code : ℤ) : (t.setExit pid code).link = t.link := by
  unfold Thread.link Thread.setExit
  rw [setExitCode_pid]

/-- The invariant: tids and pids are below the next one, and the links are in order. -/
structure LinkInv (m : Page → Option Link) (all : List Page) (n : ℤ) : Prop where
  nodup : all.Nodup
  tid : ∀ {p l}, m p = some l → 0 < l.tid ∧ l.tid < n
  pids : ∀ {p l}, m p = some l → ∀ x ∈ l.pids, x < n
  parent : ∀ {p l q}, p ∈ all → m p = some l → l.pt = some q → q ∈ all ∧ ∃ u, m q = some u ∧ u.pids.count l.tid = 1

namespace LinkInv
variable {m : Page → Option Link} {all : List Page} {n : ℤ} {p q : Page} {l : Link}

theorem failed (h : LinkInv m all n) (hp : m p = some l) (hn : 0 < n) {xs : List ℤ} (hxs : ∀ x ∈ xs, x = -1) :
    LinkInv (update m p (some { l with pids := l.pids ++ xs })) all n := by
  have hcount : ∀ {y : ℤ}, 0 < y → (l.pids ++ xs).count y = l.pids.count y := by
    intro y hy
    have hzero : xs.count y = 0 := count_eq_zero.2 fun hmem => by
      have := hxs y hmem
      omega
    rw [count_append, hzero, Nat.add_zero]
  have hcases : ∀ {q k}, update m p (some { l with pids := l.pids ++ xs }) q = some k →
      ∃ k', m q = some k' ∧ k'.tid = k.tid ∧ k'.pt = k.pt ∧ ∀ x ∈ k.pids, x ∈ k'.pids ∨ x = -1 := by
    intro q k hk
    by_cases e : q = p
    · rw [e, update_self] at hk
      cases hk
      exact ⟨l, e ▸ hp, rfl, rfl, fun x hx => (mem_append.1 hx).imp_right (hxs x)⟩
    · rw [update_of_ne e] at hk
      exact ⟨k, hk, rfl, rfl, fun x hx => .inl hx⟩
  refine ⟨h.nodup, fun hk => ?_, fun hk x hx => ?_, fun {r k q} hr hk hpt => ?_⟩
  · obtain ⟨k', hk', htid, -⟩ := hcases hk
    exact htid ▸ h.tid hk'
  · obtain ⟨k', hk', -, -, hpids⟩ := hcases hk
    rcases hpids x hx with hx | rfl
    · exact h.pids hk' x hx
    · omega
  · obtain ⟨k', hk', htid, hpt', -⟩ := hcases hk
    obtain ⟨hq, u, hu, hone⟩ := h.parent hr hk' (hpt'.trans hpt)
    have hpos := (h.tid hk').1
    rw [htid] at hone hpos
    refine ⟨hq, ?_⟩
    by_cases e : q = p
    · subst e
      rw [hp] at hu
      cases hu
      exact ⟨_, update_self .., (hcount hpos).trans hone⟩
    · exact ⟨u, by rw [update_of_ne e, hu], hone⟩

theorem created (h : LinkInv m all n) (hp : m p = some l) (hall : p ∈ all) (hq : m q = none) (hqall : q ∉ all) (hn : 0 < n) :
    LinkInv (update (update m p (some { l with pids := l.pids ++ [n] })) q (some ⟨n, some p, []⟩))
      (all ++ [q]) (n + 1) := by
  have hqp : p ≠ q := by
    rintro rfl
    exact hqall hall
  have hcases : ∀ {r k}, update (update m p (some { l with pids := l.pids ++ [n] })) q (some ⟨n, some p, []⟩) r =
      some k → r = q ∧ k = ⟨n, some p, []⟩ ∨
      r ≠ q ∧ ∃ k', m r = some k' ∧ k'.tid = k.tid ∧ k'.pt = k.pt ∧ ∀ x ∈ k.pids, x ∈ k'.pids ∨ x = n := by
    intro r k hk
    by_cases e : r = q
    · rw [e, update_self] at hk
      exact .inl ⟨e, (Option.some.inj hk).symm⟩
    · rw [update_of_ne e] at hk
      refine .inr ⟨e, ?_⟩
      by_cases e' : r = p
      · rw [e', update_self] at hk
        cases hk
        exact ⟨l, e' ▸ hp, rfl, rfl, fun x hx => (mem_append.1 hx).imp_right mem_singleton.1⟩
      · rw [update_of_ne e'] at hk
        exact ⟨k, hk, rfl, rfl, fun x hx => .inl hx⟩
  have hparent : update (update m p (some { l with pids := l.pids ++ [n] })) q (some ⟨n, some p, []⟩) p =
      some { l with pids := l.pids ++ [n] } := by
    rw [update_of_ne hqp, update_self]
  have hfresh : l.pids.count n = 0 := count_eq_zero.2 fun hmem => lt_irrefl _ (h.pids hp n hmem)
  refine ⟨?_, fun {r k} hk => ?_, fun {r k} hk x hx => ?_, fun {r k q'} hr hk hpt => ?_⟩
  · exact nodup_append_comm.2 (nodup_cons.2 ⟨hqall, h.nodup⟩)
  · rcases hcases hk with ⟨-, rfl⟩ | ⟨-, k', hk', htid, -⟩
    · exact ⟨hn, lt_add_one n⟩
    · have := h.tid hk'
      omega
  · rcases hcases hk with ⟨-, rfl⟩ | ⟨-, k', hk', -, -, hpids⟩
    · cases hx
    · rcases hpids x hx with hx | rfl
      · have := h.pids hk' x hx
        omega
      · exact lt_add_one _
  · rcases hcases hk with ⟨-, rfl⟩ | ⟨hrq, k', hk', htid, hpt', -⟩
    · cases hpt
      refine ⟨mem_append_left _ hall, _, hparent, ?_⟩
      rw [count_append, hfresh, count_singleton_self]
    · have hrall : r ∈ all := (mem_append.1 hr).resolve_right fun hmem => hrq (mem_singleton.1 hmem)
      obtain ⟨hq', u, hu, hone⟩ := h.parent hrall hk' (hpt'.trans hpt)
      have hlt := (h.tid hk').2
      rw [htid] at hone hlt
      refine ⟨mem_append_left _ hq', ?_⟩
      by_cases e : q' = p
      · subst e
        rw [hp] at hu
        cases hu
        refine ⟨_, hparent, ?_⟩
        rw [count_append, hone, count_eq_zero.2]
        exact fun hmem => hlt.ne (mem_singleton.1 hmem)
      · have hne : q' ≠ q := by
          rintro rfl
          exact hqall hq'
        exact ⟨u, by rw [update_of_ne hne, update_of_ne e, hu], hone⟩

theorem removed (h : LinkInv m all n) {o : Option Link} (ho : ∀ k, o = some k → m p = some k)
    (hno : ∀ q ∈ all, ∀ k, m q = some k → k.pt ≠ some p) : LinkInv (update m p o) (all.erase p) n := by
  have hcases : ∀ {q k}, update m p o q = some k → m q = some k := by
    intro q k hk
    by_cases e : q = p
    · rw [e, update_self] at hk
      rw [e, ho k hk]
    · rwa [update_of_ne e] at hk
  refine ⟨h.nodup.erase p, fun hk => h.tid (hcases hk), fun hk => h.pids (hcases hk), fun {r k q} hr hk hpt => ?_⟩
  have hr' := mem_of_mem_erase hr
  obtain ⟨hq, u, hu, hone⟩ := h.parent hr' (hcases hk) hpt
  have hqp : q ≠ p := by
    rintro rfl
    exact hno r hr' k (hcases hk) hpt
  exact ⟨(mem_erase_of_ne hqp).2 hq, u, by rw [update_of_ne hqp, hu], hone⟩

end LinkInv

/-! ## Steps -/

namespace Threads
variable {s s' : Threads} {p : Page} {t : Thread}

/-- Nothing that matters here has changed. -/
def SameLinks (s s' : Threads) : Prop :=
  s'.links = s.links ∧ s'.allList = s.allList ∧ s'.nextTid = s.nextTid ∧ s'.corrupted = s.corrupted

theorem SameLinks.refl (s : Threads) : SameLinks s s := ⟨rfl, rfl, rfl, rfl⟩

theorem SameLinks.trans {s'' : Threads} (h : SameLinks s s') (h' : SameLinks s' s'') : SameLinks s s'' :=
  ⟨h'.1.trans h.1, h'.2.1.trans h.2.1, h'.2.2.1.trans h.2.2.1, h'.2.2.2.trans h.2.2.2⟩

theorem links_eq (hp : s.mem p = some t) : s.links p = some t.link := by
  unfold links
  rw [hp]
  rfl

theorem links_set (s : Threads) (p : Page) (t : Thread) : (s.set p t).links = update s.links p (some t.link) := by
  funext q
  unfold links set
  dsimp only
  rw [update_apply, update_apply]
  split_ifs <;> rfl

theorem sameLinks_set {t' : Thread} (hp : s.mem p = some t) (h : t'.link = t.link) : SameLinks s (s.set p t') := by
  refine ⟨?_, rfl, rfl, rfl⟩
  rw [links_set, h, ← links_eq hp, update_eq_self]

theorem sameLinks_goto (hp : s.mem p = some t) (k : Pc) : SameLinks s (s.goto p t k) := sameLinks_set hp rfl

theorem enter_sameLinks {s1 : Threads} (h : s.enter p = some (s1, t)) : SameLinks s s1 := by
  have he := enter_spec h
  have hlink : ∀ s : Threads, s.links = fun p => (s.cards p).map Thread.link := fun s => by
    funext p
    unfold links cards
    rw [Option.map_map]
    rfl
  refine ⟨by rw [hlink, hlink, he.cards], he.allList, he.nextTid, ?_⟩
  unfold enter at h
  split_ifs at h with h0
  split at h
  · split_ifs at h
    obtain ⟨rfl, -⟩ := Prod.mk.inj (Option.some.inj h)
    rfl
  · cases h

theorem sameLinks_record {q : Page} {pt : Thread} (hp : s.mem p = some t) (hq : s.mem q = some pt) (code : ℤ) (k : Pc) :
    SameLinks s ((s.set q (pt.setExit t.tid code)).goto p t k) := by
  have h := sameLinks_set hq (pt.setExit_link t.tid code)
  refine ⟨?_, rfl, rfl, rfl⟩
  rw [goto, links_set, h.1]
  exact (links_set s p { t with pc := k }).symm.trans (sameLinks_goto hp k).1

theorem exit_sameLinks (hp : s.mem p = some t) (status : ℤ) : SameLinks s (s.exit p t status false) := by
  have horphan : s.orphan t false = s := by
    unfold orphan
    rw [Bool.and_false, Bool.or_false]
  unfold exit
  rw [horphan]
  dsimp only
  split
  · exact sameLinks_goto hp _
  · split
    · exact sameLinks_goto hp _
    · rename_i pt hpt
      exact (sameLinks_record hp hpt status .exiting).trans ⟨rfl, rfl, rfl, rfl⟩

theorem invalid_sameLinks (hp : s.mem p = some t) : SameLinks s (s.processInvalidExit p t) := by
  unfold processInvalidExit
  split
  · exact sameLinks_goto hp _
  · split
    · exact sameLinks_goto hp _
    · rename_i pt hpt
      exact sameLinks_record hp hpt (-1) .user

theorem wait_sameLinks (hp : s.mem p = some t) (pid : ℤ) : SameLinks s (s.processWait p t pid) := by
  unfold processWait
  split <;> exact sameLinks_goto hp _

theorem waitReturn_sameLinks (hp : s.mem p = some t) (pid code : ℤ) : SameLinks s (s.waitReturn p t pid code) :=
  (sameLinks_goto hp .user).trans ⟨rfl, rfl, rfl, rfl⟩

theorem setWaited_sameLinks (s : Threads) (st : Page) : SameLinks s (s.setWaited st) := by
  unfold setWaited
  split
  · rename_i c hc
    exact sameLinks_set hc rfl
  · exact .refl s

theorem threadUnblock_sameLinks (s : Threads) (q : Page) : SameLinks s (s.threadUnblock q) := by
  unfold threadUnblock
  split
  · rename_i u hu
    split_ifs
    · exact sameLinks_set hu rfl
    · exact ⟨rfl, rfl, rfl, rfl⟩
  · exact ⟨rfl, rfl, rfl, rfl⟩

theorem advance_sameLinks (hp : s.mem p = some t) (h : s.advance p t = some s') :
    SameLinks s s' ∨ t.pc = .exitRemove ∧ s' = s.threadRemove p t := by
  unfold advance at h
  split at h
  · cases h
    exact .inl (waitReturn_sameLinks hp _ _)
  · split_ifs at h <;> cases h
    · exact .inl (waitReturn_sameLinks hp _ _)
    · exact .inl (sameLinks_goto hp _)
  · split_ifs at h <;> cases h
    · exact .inl (sameLinks_goto hp _)
    · exact .inl (waitReturn_sameLinks hp _ _)
  · cases h
    exact .inl ((sameLinks_goto hp _).trans (setWaited_sameLinks _ _))
  · cases h
    exact .inl (sameLinks_set hp rfl)
  · cases h
    exact .inl (waitReturn_sameLinks hp _ _)
  · split at h <;> cases h <;> exact .inl (sameLinks_goto hp _)
  · cases h
    exact .inl ((sameLinks_goto hp _).trans (threadUnblock_sameLinks _ _))
  · rename_i hpc
    cases h
    exact .inr ⟨hpc, rfl⟩
  · cases h
    exact .inl (sameLinks_goto hp _)
  · cases h
  · cases h

/-- What every step keeps. -/
structure LinksInv (s : Threads) : Prop where
  links : LinkInv s.links s.allList s.nextTid
  nextTid : 0 < s.nextTid
  intact : s.corrupted = false

theorem LinksInv.same (h : LinksInv s) (hs : SameLinks s s') : LinksInv s' := by
  obtain ⟨h1, h2, h3, h4⟩ := hs
  exact ⟨by rw [h1, h2, h3]; exact h.links, by rw [h3]; exact h.nextTid, h4.trans h.intact⟩

theorem pushSub_link (t : Thread) (tid : ℤ) (rec : Option ℤ) :
    (t.pushSub tid rec).link = { t.link with pids := t.link.pids ++ (rec.map fun _ => tid).toList } := by
  cases rec with
  | none =>
    unfold Thread.pushSub Thread.link
    dsimp only [Option.map_none, Option.toList_none]
    rw [append_nil]
  | some junk =>
    unfold Thread.pushSub Thread.link
    rw [map_append]
    rfl

theorem LinksInv.execute {fnCopy : Bool} {page : Option Page} {rec : Option ℤ} (h : LinksInv s) (hp : s.mem p = some t)
    (hall : p ∈ s.allList) (hrec : fnCopy = true → page.isSome = true → rec.isSome = true) (htid : s.nextTid < 2 ^ 31 - 1)
    (hstep : s.processExecute p t fnCopy page rec = some s') : LinksInv s' := by
  have hlink := links_eq hp
  have hpos := h.nextTid
  unfold processExecute at hstep
  split_ifs at hstep with hf
  · cases hstep
    exact h.same (sameLinks_set hp rfl)
  · rw [Bool.not_eq_false] at hf
    cases page with
    | none =>
      cases hstep
      refine ⟨?_, h.nextTid, h.intact⟩
      rw [links_set, pushSub_link]
      refine h.links.failed hlink h.nextTid fun x hx => ?_
      obtain ⟨_, -, rfl⟩ := Option.map_eq_some_iff.1 (Option.mem_toList.1 hx)
      rfl
    | some q =>
      dsimp only at hstep
      split_ifs at hstep with hq
      cases hstep
      push Not at hq
      obtain ⟨junk, rfl⟩ := Option.isSome_iff_exists.1 (hrec hf rfl)
      have hnone : s.links q = none := by
        unfold Threads.links
        rw [Option.not_isSome_iff_eq_none.1 hq.1]
        rfl
      have hbmod : (s.nextTid + 1).bmod (2 ^ 32) = s.nextTid + 1 := by
        rw [Int.bmod_eq_of_le] <;> omega
      refine ⟨?_, ?_, h.intact⟩
      · change LinkInv ((s.set p (t.pushSub s.nextTid (some junk))).set q _).links (s.allList ++ [q]) _
        rw [hbmod, links_set, links_set, pushSub_link]
        exact h.links.created hlink hall hnone hq.2 h.nextTid
      · change 0 < (s.nextTid + 1).bmod (2 ^ 32)
        omega

theorem LinksInv.remove (h : LinksInv s) (hp : s.mem p = some t)
    (hno : (s.allList.all fun q => !(s.mem q).any fun u => u.pt == some p) = true) : LinksInv (s.threadRemove p t) := by
  have hlinks : (s.threadRemove p t).links = update s.links p (if p = initialThread then some t.link else none) := by
    funext q
    unfold Threads.links threadRemove
    dsimp only
    rw [update_apply, update_apply]
    split_ifs <;> rfl
  refine ⟨?_, h.nextTid, h.intact⟩
  rw [hlinks]
  refine h.links.removed (fun k hk => ?_) fun q hq k hk hpt => ?_
  · split_ifs at hk
    cases hk
    exact links_eq hp
  · obtain ⟨u, hu, rfl⟩ := Option.map_eq_some_iff.1 hk
    have := all_eq_true.1 hno q hq
    rw [hu, Option.any_some, show u.pt = some p from hpt, beq_self_eq_true] at this
    cases this

theorem step_linksInv {l : Label} (h : LinksInv s) (hok : LinkOk s l) (hstep : s.step l = some s') : LinksInv s' := by
  have hcall : ∀ {p f}, s.call p f = some s' → (∀ s1 t, LinksInv s1 → s1.mem p = some t → p ∈ s1.allList →
      s1.nextTid = s.nextTid → f s1 t = some s' → LinksInv s') → LinksInv s' := by
    intro p f hc hf
    obtain ⟨s1, t, he, -, hs⟩ := call_spec hc
    have hsame := enter_sameLinks he
    have hspec := enter_spec he
    exact hf s1 t (h.same hsame) hspec.mem hspec.listed hspec.nextTid hs
  cases l with
  | execute p fnCopy page rec =>
    refine hcall hstep fun s1 t h₁ hp hall hn hs => h₁.execute hp hall hok.1 ?_ hs
    rw [hn]
    exact hok.2
  | exit p status hits =>
    refine hcall hstep fun s1 t h₁ hp _ _ hs => ?_
    cases hs
    obtain rfl : hits = false := hok
    exact h₁.same (exit_sameLinks hp status)
  | kill p =>
    refine hcall hstep fun s1 t h₁ hp _ _ hs => ?_
    cases hs
    exact h₁.same ((sameLinks_goto hp _).trans ⟨rfl, rfl, rfl, rfl⟩)
  | invalid p =>
    refine hcall hstep fun s1 t h₁ hp _ _ hs => ?_
    cases hs
    exact h₁.same (invalid_sameLinks hp)
  | wait p pid =>
    refine hcall hstep fun s1 t h₁ hp _ _ hs => ?_
    cases hs
    exact h₁.same (wait_sameLinks hp pid)
  | advance p =>
    simp only [step] at hstep
    split at hstep
    · rename_i s1 t he
      have hsame := enter_sameLinks he
      have hspec := enter_spec he
      rcases advance_sameLinks hspec.mem hstep with hs | ⟨hpc, rfl⟩
      · exact (h.same hsame).same hs
      · have hpt : ∀ s : Threads, (fun q => !(s.mem q).any fun u => u.pt == some p) =
            fun q => !(s.links q).any fun k => k.pt == some p := fun s => by
          funext q
          unfold links
          rw [Option.any_map]
          rfl
        obtain ⟨t0, ht0, rfl⟩ := hspec.old
        have hno := hok (by rw [ht0, Option.any_some, show t0.pc = .exitRemove from hpc]; rfl)
        refine (h.same hsame).remove hspec.mem ?_
        rw [hpt] at hno ⊢
        rwa [hsame.1, hsame.2.1]
    · cases hstep
  | sleep p =>
    simp only [step] at hstep
    split at hstep
    · rename_i s1 t he
      split_ifs at hstep
      cases hstep
      exact (h.same (enter_sameLinks he)).same (sameLinks_set (enter_spec he).mem rfl)
    · cases hstep
  | wake p q =>
    refine hcall hstep fun s1 t h₁ hp _ _ hs => ?_
    split at hs
    · split_ifs at hs
      cases hs
      exact h₁.same (threadUnblock_sameLinks _ q)
    · cases hs

theorem boot_linksInv : LinksInv boot := by
  have hcases : ∀ {p l}, boot.links p = some l → l.pt = none ∧ l.pids = [] ∧ 0 < l.tid ∧ l.tid < 3 := by
    intro p l h
    obtain ⟨t, ht, rfl⟩ := Option.map_eq_some_iff.1 h
    unfold boot at ht
    dsimp only at ht
    split_ifs at ht <;> cases ht
    · exact ⟨rfl, rfl, by decide, by decide⟩
    · exact ⟨rfl, rfl, by decide, by decide⟩
  refine ⟨⟨by decide, fun h => (hcases h).2.2, fun h x hx => ?_, fun _ h hpt => ?_⟩, by decide, rfl⟩
  · rw [(hcases h).2.1] at hx
    cases hx
  · rw [(hcases h).1] at hpt
    cases hpt

theorem LinksInv.ok (h : LinksInv s) : LinksOk s where
  parent p hp t ht q hq := by
    obtain ⟨hall, k, hk, hone⟩ := h.links.parent hp (links_eq ht) hq
    obtain ⟨u, hu, rfl⟩ := Option.map_eq_some_iff.1 hk
    refine ⟨hall, u, hu, ?_⟩
    have hcount : u.link.pids.count t.link.tid = u.subThreads.countP fun r => r.pid == t.tid := by
      unfold Thread.link
      rw [count, countP_map]
      rfl
    rw [← hone, hcount]
    exact countP_congr fun r _ => by rw [decide_eq_true_eq, beq_iff_eq]
  intact := h.intact

end Threads

open Threads

/-- **Parents.**  In every run whose steps all meet `LinkOk`, a thread's parent lives and has one
    record of it. -/
theorem links_ok {s : Threads} (h : Reaches step LinkOk boot s) : LinksOk s := by
  have hinv : LinksInv s := h.invariant boot_linksInv fun _ _ _ ih hok hstep => step_linksInv ih hok hstep
  exact hinv.ok

/-- The initial thread executes a process, which executes another one and ends after it. -/
theorem links_ok_nested : ∃ s, Reaches step LinkOk boot s ∧ (s.allList == [0, 1] && s.nextTid == 5) = true ∧ LinksOk s := by
  obtain ⟨s, hs, hp⟩ := reaches_of_run step LinkOk boot
    [.execute 0 true (some 2) (some 7), .execute 2 true (some 3) (some 7), .exit 3 81 false, .advance 3, .advance 3,
      .exit 2 82 false, .advance 2, .advance 2]
    (fun s => s.allList == [0, 1] && s.nextTid == 5) (by decide)
  exact ⟨s, hs, hp, links_ok hs⟩

/-- The parent ends first, or the record of the child could not be allocated. -/
theorem links_broken : (∃ s, Reaches step anyStep boot s ∧ s.corrupted = false ∧ ¬ LinksOk s) ∧
    ∃ s, Reaches step anyStep boot s ∧ s.allList = [0, 1, 2] ∧ ¬ LinksOk s := by
  constructor
  · obtain ⟨s, hs, hp⟩ := reaches_of_run step anyStep boot
      [.execute 0 true (some 2) (some 7), .execute 2 true (some 3) (some 7), .exit 2 82 false, .advance 2, .advance 2]
      (fun s => !s.corrupted && s.allList == [0, 1, 3] && (s.mem 3).any fun t => t.pt == some 2) (by decide)
    rw [Bool.and_eq_true, Bool.and_eq_true, Bool.not_eq_true', beq_iff_eq] at hp
    refine ⟨s, hs, hp.1.1, fun hok => ?_⟩
    obtain ⟨t, ht, hpt⟩ := (Option.any_eq_true _ _).1 hp.2
    have hmem := (hok.parent 3 (by rw [hp.1.2]; decide) t ht 2 (beq_iff_eq.1 hpt)).1
    rw [hp.1.2] at hmem
    exact absurd hmem (by decide)
  · obtain ⟨s, hs, hp⟩ := reaches_of_run step anyStep boot [.execute 0 true (some 2) none]
      (fun s => s.allList == [0, 1, 2] && ((s.mem 2).any fun t => t.pt == some 0) && (s.mem 0).any fun u => u.subThreads == [])
      (by decide)
    rw [Bool.and_eq_true, Bool.and_eq_true, beq_iff_eq] at hp
    refine ⟨s, hs, hp.1.1, fun hok => ?_⟩
    obtain ⟨t, ht, hpt⟩ := (Option.any_eq_true _ _).1 hp.1.2
    obtain ⟨u, hu, hsub⟩ := (Option.any_eq_true _ _).1 hp.2
    obtain ⟨-, u', hu', hone⟩ := hok.parent 2 (by rw [hp.1.1]; decide) t ht 0 (beq_iff_eq.1 hpt)
    rw [hu] at hu'
    rw [← Option.some.inj hu', beq_iff_eq.1 hsub] at hone
    cases hone

end Pintos
