/-
  Descriptors and open files.

  What the calls do to the descriptors and to the files that are open, wherever they return, whatever is on
  the device and whenever memory is missing: most leave both as they are (`Stays`), `open` opens a file and
  perhaps adds a descriptor for it, `close` takes both away (`Drops`).
-/
import Pintos.Files.Isolation
import Pintos.Fs.Assertions

namespace Pintos.Files

open Lib Prog Function List

variable {s s' : Sys} {mem : Memory} {t fd file : ℕ} {e : FdElem} {fs : Fs} {α : Type}

/-! ## Failing no assertion -/

def Fault.isAssertion : Fault → Bool
  | .fs p => p.isAssertion
  | .freed | .user | .null => false

/-- The program fails no assertion from `s`, and where it returns, `Q` holds. -/
abbrev NoAssertCall (x : SysM α) (s : Sys) (Q : α → Sys → Prop) : Prop :=
  Prog.Avoids (fun p : Fault => p.isAssertion = true) x s Q

theorem noAssert_onFs {x : FsM α} {Q : α → Fs → Prop} (h : NoAssert x s.fs Q) :
    NoAssertCall (onFs x) s fun a s' => ∃ fs, Q a fs ∧ s' = s.withFs fs where
  error {e} hrun := by
    unfold onFs at hrun
    rw [run_bind_get] at hrun
    cases hx : x.run s.fs with
    | ok r =>
      rw [hx] at hrun
      cases hrun
    | error p =>
      rw [hx] at hrun
      obtain rfl : Fault.fs p = e := Except.error.inj hrun
      exact h.error hx
  ok hrun := by
    obtain ⟨fs, hx, rfl⟩ := ok_of_onFs hrun
    exact ⟨fs, h.ok hx, rfl⟩

theorem noAssert_readName (p : ℕ) : NoAssertCall (readName mem p) s fun n s' => mem p = some n ∧ s' = s := by
  unfold readName
  cases hn : mem p with
  | some n => exact .pure ⟨rfl, rfl⟩
  | none => exact .throw nofun

theorem noAssert_isRemoving (n : Name) (l : List RemovingFile) : NoAssertCall (isRemoving mem n l) s fun _ s' => s' = s := by
  induction l with
  | nil => exact .pure rfl
  | cons rf rest ih =>
    refine (noAssert_readName rf.fileName).bind fun m s1 ⟨_, hs1⟩ => ?_
    subst hs1
    exact .ite (fun _ => .pure rfl) fun _ => ih

theorem quiet_addFd (t fd f file : ℕ) : Prog.Quiet (fun p : Fault => p.isAssertion = true) (addFd t fd f file) := by
  have hmalloc : Prog.Quiet (fun p : Fault => p.isAssertion = true) (onFs malloc) := fun s =>
    (noAssert_onFs (quiet_malloc s.fs)).mono fun _ _ _ => trivial
  have hadd : Prog.Quiet (fun p : Fault => p.isAssertion = true) (threadAddFd t fd f file) := by
    refine quiet_get.bind fun s => .ite (hmalloc.bind fun _ => .ite ?_ (quiet_pure _)) (quiet_pure _)
    exact (quiet_modify _).bind fun _ => quiet_pure _
  refine hadd.bind fun _ => .ite (quiet_get.bind fun s => .ite ?_ (quiet_pure _)) (quiet_pure _)
  exact hmalloc.bind fun _ => .ite (quiet_modify _) (quiet_throw nofun)

/-! ## Descriptors and files -/

structure Attached (s : Sys) : Prop where
  table : Table s
  counted : Pintos.Counted s.fs []
  map : MapLive s.fs
  live : ∀ {t e}, e ∈ s.fdList t → (s.fs.files.get e.f).isSome
  apart : ∀ {t e}, e ∈ s.fdList t → s.fs.freeMapFile ≠ some e.f
  inj : ∀ {t t' e e'}, e ∈ s.fdList t → e' ∈ s.fdList t' → e.f = e'.f → e.fd = e'.fd

/-- The descriptors and the open files stay as they are. -/
structure Stays (s s' : Sys) : Prop where
  allList : s'.allList = s.allList
  fdList : s'.fdList = s.fdList
  fdsLl : s'.fdsLl = s.fdsLl
  counted : Pintos.Counted s'.fs []
  files : SameOpen s.fs s'.fs

/-- The descriptor `e` of the thread `t` and its file are closed. -/
structure Drops (s : Sys) (t : ℕ) (e : FdElem) (s' : Sys) : Prop where
  allList : s'.allList = s.allList
  fdList : s'.fdList = (s.dropped t e.fd).fdList
  fdsLl : s'.fdsLl = (s.dropped t e.fd).fdsLl
  files : OneLess s.fs s'.fs e.f

namespace Stays

theorem refl (hc : Pintos.Counted s.fs []) : Stays s s := ⟨rfl, rfl, rfl, hc, fun _ => rfl, rfl⟩

theorem trans {u : Sys} (h : Stays s s') (h' : Stays s' u) : Stays s u :=
  ⟨h'.allList.trans h.allList, h'.fdList.trans h.fdList, h'.fdsLl.trans h.fdsLl, h'.counted, h.files.trans h'.files⟩

theorem withFs (hc : Pintos.Counted fs []) (hs : SameOpen s.fs fs) : Stays s (s.withFs fs) := ⟨rfl, rfl, rfl, hc, hs⟩

end Stays

theorem Drops.stays {u : Sys} (h : Drops s t e s') (h' : Stays s' u) : Drops s t e u :=
  ⟨h'.allList.trans h.allList, h'.fdList.trans h.fdList, h'.fdsLl.trans h.fdsLl, h.files.congr h'.counted h'.files⟩

namespace Attached

theorem boot {threads : List ℕ} (hc : Pintos.Counted fs []) (hm : MapLive fs) (hthreads : threads.Nodup) :
    Attached (.boot fs threads) where
  table := .boot fs hthreads
  counted := hc
  map := hm
  live := nofun
  apart := nofun
  inj := nofun

theorem stays (h : Attached s) (hs : Stays s s') : Attached s' where
  table := h.table.congr hs.allList hs.fdList hs.fdsLl
  counted := hs.counted
  map := hs.files.mapLive h.map hs.counted
  live he := by
    rw [hs.fdList] at he
    exact (hs.files.live _).trans (h.live he)
  apart he := by
    rw [hs.fdList] at he
    rw [hs.files.map]
    exact h.apart he
  inj he he' := by
    rw [hs.fdList] at he he'
    exact h.inj he he'

theorem getFileP_cases (h : Attached s) (fd : ℕ) : (s.Free fd ∧ (getFileP fd).run s = .ok (none, s)) ∨
    ∃ t e f, e ∈ s.fdList t ∧ e.fd = fd ∧ (getFileP fd).run s = .ok (some e.f, s) ∧ s.fs.files.get e.f = some f := by
  by_cases hfree : s.Free fd
  · exact .inl ⟨hfree, h.table.getFileP_none hfree⟩
  · unfold Sys.Free at hfree
    push Not at hfree
    obtain ⟨t, e, he, rfl⟩ := hfree
    obtain ⟨f, hf⟩ := Option.isSome_iff_exists.1 (h.live he)
    exact .inr ⟨t, e, f, he, rfl, h.table.getFileP_some he, hf⟩

/-! ## Opening and closing -/

theorem opens {f : ℕ} (h : Attached s) (fd : ℕ) (ho : OneMore s.fs s'.fs f) (htable : Table s')
    (hlist : ∀ {t' e}, e ∈ s'.fdList t' → e ∈ s.fdList t' ∨ e.fd = fd ∧ e.f = f) : Attached s' := by
  -- the files that were open are others, and still open
  have hne : ∀ {k}, (s.fs.files.get k).isSome → k ≠ f := by
    rintro k hk rfl
    rw [ho.fresh] at hk
    cases hk
  have hkeep : ∀ {k}, (s.fs.files.get k).isSome → (s'.fs.files.get k).isSome := fun hk => (ho.others _ (hne hk)).trans hk
  refine ⟨htable, ho.counted, ho.mapLive h.map, fun he => ?_, fun he => ?_, fun he he' hff => ?_⟩
  · rcases hlist he with he | ⟨-, hf⟩
    · exact hkeep (h.live he)
    · rw [hf]
      exact ho.isOpen
  · rw [ho.map]
    rcases hlist he with he | ⟨-, hf⟩
    · exact h.apart he
    · obtain ⟨m, g, n, hm, hg, -⟩ := h.map
      rw [hf, hm, Ne, Option.some.injEq]
      exact hne (Option.isSome_iff_exists.2 ⟨g, hg⟩)
  · rcases hlist he with he | ⟨hfd, hf⟩ <;> rcases hlist he' with he' | ⟨hfd', hf'⟩
    · exact h.inj he he' hff
    · exact absurd (hff.trans hf') (hne (h.live he))
    · exact absurd (hff.symm.trans hf) (hne (h.live he'))
    · rw [hfd, hfd']

theorem open_cases {r : ℕ} (h : Attached s) (ho : Opened mem t file s r s') : Stays s s' ∨ ∃ n f fs, mem file = some n ∧
    n.val.length ≠ 0 ∧ (isRemoving mem n s.removingList).run s = .ok (false, s) ∧ (filesysOpen n).run s.fs = .ok (some f, fs) ∧
      Issued (s.withFs fs) t f file s' ∧ OneMore s.fs s'.fs f := by
  cases ho with
  | empty | hidden => exact .inl (.refl h.counted)
  | absent _ _ hopen =>
    obtain ⟨hc, hheld⟩ := (noAssert_filesysOpen h.counted h.map _).ok hopen
    exact .inl (.withFs hc (sameOpen_of_held hheld))
  | @issued n fs f _ hm hlen hrem hopen hi =>
    obtain ⟨hc, hnew⟩ := (noAssert_filesysOpen h.counted h.map _).ok hopen
    refine .inr ⟨n, f, fs, hm, hlen, hrem, hopen, hi, ?_⟩
    have hfs : s'.fs.handles = fs.handles := by
      cases hi with
      | reserved => rfl
      | added _ ha => cases ha <;> rfl
    exact (OneMore.of_newFile hc hnew).congr (hc.congr_handles hfs) (sameOpen_of_held (held_of_handles hfs))

theorem open_ {r : ℕ} (h : Attached s) (ht : t ∈ s.allList) (hfree : s.Free s.globalFd) (ho : Opened mem t file s r s') :
    Attached s' := by
  have htable := h.table.open_ ht hfree ho
  rcases h.open_cases ho with hs | ⟨n, f, fs, -, -, -, -, hi, hmore⟩
  · exact h.stays hs
  refine h.opens s.globalFd hmore htable fun he => ?_
  cases hi with
  | reserved => exact .inl he
  | added _ ha =>
    cases ha with
    | full | noMemory => exact .inl he
    | added =>
      change _ ∈ update s.fdList t (s.fdList t ++ [⟨s.globalFd, f, file⟩]) _ at he
      rw [Table.fdList_update] at he
      split_ifs at he with htt
      · rcases mem_append.1 he with he | he
        · exact .inl (htt ▸ he)
        · rw [mem_singleton.1 he]
          exact .inr ⟨rfl, rfl⟩
      · exact .inl he

theorem noAssert_open (h : Attached s) (ht : t ∈ s.allList) (hfree : s.Free s.globalFd) :
    NoAssertCall (Files.open_ mem t file) s fun _ s' => Attached s' := by
  have hopen : NoAssertCall (Files.open_ mem t file) s fun _ _ => True := by
    refine (noAssert_readName file).bind fun n s1 ⟨_, hs1⟩ => .ite (fun _ => .pure trivial) fun _ => ?_
    subst hs1
    refine .bind_run (run_get s1) ((noAssert_isRemoving n s1.removingList).bind fun removing s2 hs2 => ?_)
    subst hs2
    refine .ite (fun _ => .pure trivial) fun _ => ?_
    refine (noAssert_onFs (noAssert_filesysOpen h.counted h.map n)).bind fun f s3 _ => ?_
    cases f with
    | none => exact .pure trivial
    | some f =>
      refine .bind_run (run_modify _ _) (.ite (fun _ => ?_) fun _ => .pure trivial)
      exact (quiet_addFd t s2.globalFd f file _).bind fun _ _ _ => .pure trivial
  exact (hopen.and_ok fun r s' hrun => h.open_ ht hfree (open_spec hrun)).mono fun _ _ h => h.2

theorem drops (h : Attached s) (he : e ∈ s.fdList t) (hd : Drops s t e s') : Attached s' := by
  have hlist : ∀ {t' e'}, e' ∈ s'.fdList t' → e' ∈ s.fdList t' ∧ e'.fd ≠ e.fd := by
    intro t' e' he'
    rw [hd.fdList] at he'
    change e' ∈ update s.fdList t ((s.fdList t).eraseP (·.fd == e.fd)) t' at he'
    rw [Table.fdList_update] at he'
    split_ifs at he' with htt
    · rw [mem_eraseP_fd (h.table.nodup t)] at he'
      exact htt ▸ he'
    · exact ⟨he', fun hfd => htt (h.table.owner he' he hfd)⟩
  have hne : ∀ {t' e'}, e' ∈ s'.fdList t' → e'.f ≠ e.f := fun he' hf => (hlist he').2 (h.inj (hlist he').1 he hf)
  refine ⟨(h.table.dropped t e.fd).congr hd.allList hd.fdList hd.fdsLl, hd.files.counted, hd.files.mapLive h.map (h.apart he),
    fun he' => ?_, fun he' => ?_, fun he1 he2 => h.inj (hlist he1).1 (hlist he2).1⟩
  · rw [hd.files.others _ (hne he')]
    exact h.live (hlist he').1
  · rw [hd.files.map]
    exact h.apart (hlist he').1

theorem less {k : ℕ} (h : Attached s) (hl : OneLess s.fs fs k) (hlist : ∀ {t e}, e ∈ s.fdList t → e.f ≠ k)
    (hmap : s.fs.freeMapFile ≠ some k) : Attached (s.withFs fs) where
  table := h.table.congr rfl rfl rfl
  counted := hl.counted
  map := hl.mapLive h.map hmap
  live he := (hl.others _ (hlist he)).trans (h.live he)
  apart he := by
    change fs.freeMapFile ≠ _
    rw [hl.map]
    exact h.apart he
  inj := h.inj

theorem noAssert_removeClosed (h : Attached s) (o : Option ℕ) (fd : ℕ) :
    NoAssertCall (removeClosed mem o fd) s fun _ s' => Stays s s' := by
  refine .bind_run (run_get s) ?_
  cases s.removingList.find? fun rf => rf.fd == fd && o == some rf.t with
  | none => exact .pure (.refl h.counted)
  | some rf =>
    refine .bind_run (run_modify _ _) ?_
    generalize s.removingList.eraseP _ = rest
    have h' : Stays s (s.withRemovingList rest) := ⟨rfl, rfl, rfl, h.counted, fun _ => rfl, rfl⟩
    refine .ite (fun _ => ?_) fun _ => .pure h'
    refine (noAssert_readName rf.fileName).bind fun n s1 ⟨_, hs1⟩ => ?_
    subst hs1
    refine (noAssert_onFs (s := s.withRemovingList rest) (noAssert_filesysRemove h.counted h.map n)).bind fun _ s2 ⟨fs, hfs, hs2⟩ => .pure ?_
    rw [hs2]
    exact h'.trans (.withFs hfs.1 (sameOpen_of_held hfs.2))

/-- **`close`** takes a descriptor and its file, or nothing. -/
theorem noAssert_close (h : Attached s) (fd : ℕ) : NoAssertCall (Files.close mem fd) s fun _ s' =>
    Stays s s' ∨ ∃ t e, e ∈ s.fdList t ∧ e.fd = fd ∧ Drops s t e s' := by
  rcases h.getFileP_cases fd with ⟨hfree, -⟩ | ⟨t, e, f, he, rfl, -, hf⟩
  · exact .of_run (h.table.close_run_free hfree) (.inl (.refl h.counted))
  · refine .congr_run (h.table.close_run he) ?_
    refine (noAssert_onFs (s := s.dropped t e.fd) (noAssert_fileClose_oneLess h.counted h.map hf)).bind fun _ s1 ⟨fs, hfs, hs1⟩ => ?_
    rw [hs1]
    have hd : Drops s t e ((s.dropped t e.fd).withFs fs) := ⟨rfl, rfl, rfl, hfs⟩
    exact ((h.drops he hd).noAssert_removeClosed (some t) e.fd).mono fun _ _ hs => .inr ⟨t, e, he, rfl, hd.stays hs⟩

/-! ## Using descriptors -/

theorem noAssert_lookup {onFile : ℕ → SysM α} {onNone : SysM α} (h : Attached s) (fd : ℕ) (hnone : NoAssertCall onNone s fun _ s' => Stays s s')
    (hfile : ∀ t e f, e ∈ s.fdList t → e.fd = fd → s.fs.files.get e.f = some f →
      NoAssertCall (onFile e.f) s fun _ s' => Stays s s') :
    NoAssertCall (do match ← getFileP fd with | some f => onFile f | none => onNone) s fun _ s' => Stays s s' := by
  rcases h.getFileP_cases fd with ⟨-, hrun⟩ | ⟨t, e, f, he, hfd, hrun, hf⟩
  · exact .bind_run hrun hnone
  · exact .bind_run hrun (hfile t e f he hfd hf)

theorem noAssert_onFile {x : FsM α} (hx : NoAssert x s.fs fun _ fs => Pintos.Counted fs [] ∧ SameOpen s.fs fs) :
    NoAssertCall (onFs x) s fun _ s' => Stays s s' :=
  (noAssert_onFs hx).mono fun _ s' ⟨fs, hfs, hs'⟩ => by
    rw [hs']
    exact .withFs hfs.1 hfs.2

theorem noAssert_use (h : Attached s) (mem : Memory) (fd : ℕ) {u : Use} (hclose : u ≠ .close)
    (hseek : ∀ position, u = .seek position → s.Unheld fd ∨ position % 2 ^ 32 < 2 ^ 31) :
    NoAssertCall (u.exec mem fd) s fun _ s' => Stays s s' := by
  have hstay : Stays s s := .refl h.counted
  have hret : ∀ {β : Type} {x : SysM β} (r : β → Ret), (NoAssertCall x s fun _ s' => Stays s s') →
      NoAssertCall (do return r (← x)) s fun _ s' => Stays s s' := fun r hx => hx.bind fun _ _ h' => .pure h'
  cases u with
  | close => exact absurd rfl hclose
  | read buffer length keys =>
    refine hret (fun r : ℕ × List UInt8 => .data r.1 r.2) (.ite (fun _ => .ite (fun _ => .pure hstay) fun _ => ?_) fun _ => .pure hstay)
    refine h.noAssert_lookup fd (.pure hstay) fun t e f he _ hf => ?_
    exact (noAssert_onFile (noAssert_fileRead h.counted hf _)).bind fun _ _ h' => .pure h'
  | write buffer bytes length =>
    refine hret .eax (.ite (fun _ => .ite (fun _ => .pure hstay) fun _ => ?_) fun _ => .pure hstay)
    exact h.noAssert_lookup fd (.pure hstay) fun t e f he _ hf => noAssert_onFile (noAssert_fileWrite h.counted hf _ _)
  | seek position =>
    refine hret (fun _ => .void) (h.noAssert_lookup fd (.pure hstay) fun t e f he hfd hf => ?_)
    refine noAssert_onFile (noAssert_fileSeek h.counted hf ?_)
    rcases hseek position rfl with hun | hlt
    · exact absurd hfd (hun t (h.table.mem_threads he) e he)
    · rw [Int.bmod_def]
      split_ifs <;> omega
  | tell =>
    refine hret .eax (h.noAssert_lookup fd (.pure hstay) fun t e f he _ hf => ?_)
    exact (noAssert_onFs (noAssert_fileTell hf)).mono fun _ s' ⟨fs, hfs, hs'⟩ => by rwa [hs', hfs]
  | filesize eax =>
    refine hret .eax (h.noAssert_lookup fd (.pure hstay) fun t e f he _ hf => ?_)
    refine (noAssert_onFs (noAssert_fileLength h.counted hf)).bind fun _ s' ⟨fs, hfs, hs'⟩ => .pure ?_
    rwa [hs', hfs]

theorem noAssert_create (h : Attached s) (file size : ℕ) : NoAssertCall (create mem file size) s fun _ s' => Stays s s' := by
  have hstay : Stays s s := .refl h.counted
  refine .ite (fun _ => ?_) fun _ => .pure hstay
  refine (noAssert_readName file).bind fun n s1 ⟨_, hs1⟩ => .ite (fun _ => .pure (hs1 ▸ hstay)) fun _ => .ite (fun _ => .pure (hs1 ▸ hstay)) fun _ => ?_
  subst hs1
  refine noAssert_onFile ((noAssert_filesysCreate h.counted h.map n (Int.natCast_nonneg size)).mono fun _ fs hfs => ?_)
  exact ⟨hfs.1, sameOpen_of_held hfs.2⟩

end Attached

end Pintos.Files
