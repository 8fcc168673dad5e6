/-
  What `open` returns.

  `open` opens the file and draws a number before it tries to record the descriptor, and returns the number
  whether or not it was recorded.
-/
import Pintos.Files.Isolation
import Pintos.Files.Names
import Pintos.Fs.OneFile

namespace Pintos.Files

open Lib Prog Function List

variable {s s' : Sys} {mem : Memory} {t fd file f : ℕ} {e : FdElem} {n : Name} {fs : Fs} {nodes : Nodes}

/-! ## The calls in between -/

/-- The call closes the descriptor. -/
def Call.closes (fd : ℕ) : Call → Bool
  | .use fd' .close => fd' == fd
  | _ => false

/-- A number is drawn that no process has, a descriptor is closed by the process that opened it, and a
    process exits without descriptors. -/
def OwnersOnly (s : Sys) (q : Request) : Prop :=
  match q.call with
  | .open_ _ => s.Unheld s.globalFd
  | .use fd .close => (∃ e ∈ s.fdList q.t, e.fd = fd) ∨ s.Unheld fd
  | .exit => s.fdList q.t = []
  | _ => True

instance (s : Sys) : (q : Request) → Decidable (OwnersOnly s q)
  | ⟨_, _, .open_ _⟩ => inferInstanceAs (Decidable (s.Unheld _))
  | ⟨_, _, .use _ .close⟩ => inferInstanceAs (Decidable (_ ∨ _))
  | ⟨_, _, .exit⟩ => inferInstanceAs (Decidable (_ = _))
  | ⟨_, _, .create ..⟩ | ⟨_, _, .remove _⟩ => inferInstanceAs (Decidable True)
  | ⟨_, _, .use _ (.read ..)⟩ | ⟨_, _, .use _ (.write ..)⟩ | ⟨_, _, .use _ (.seek _)⟩ | ⟨_, _, .use _ .tell⟩
  | ⟨_, _, .use _ (.filesize _)⟩ => inferInstanceAs (Decidable True)

/-- The calls until the thread closes the descriptor. -/
def Until (t fd : ℕ) (s : Sys) (q : Request) : Prop := OwnersOnly s q ∧ ¬ (q.t = t ∧ q.call.closes fd = true)

theorem Opened.mem_fdList {r : ℕ} (h : Opened mem t file s r s') {t' : ℕ} (he : e ∈ s.fdList t') : e ∈ s'.fdList t' := by
  cases h with
  | empty | hidden | absent => exact he
  | issued _ _ _ _ hi =>
    cases hi with
    | reserved => exact he
    | added _ ha =>
      cases ha with
      | full | noMemory => exact he
      | added =>
        change e ∈ update s.fdList t (s.fdList t ++ [_]) t'
        rw [Table.fdList_update]
        split_ifs with htt
        · exact mem_append_left _ (htt ▸ he)
        · exact he

theorem Table.mem_fdList_close (h : Table s) (hrun : (Files.close mem fd).run s = .ok ((), s')) (he : e ∈ s.fdList t)
    (hne : e.fd ≠ fd) : e ∈ s'.fdList t := by
  rcases h.close_spec hrun with ⟨-, rfl⟩ | ⟨t', e', -, -, hs⟩
  · exact he
  · rw [hs.fdList]
    change e ∈ update s.fdList t' _ t
    rw [fdList_update]
    split_ifs with htt
    · rw [mem_eraseP_fd (h.nodup t')]
      exact ⟨htt ▸ he, hne⟩
    · exact he

theorem step_table {q : Request} (h : Table s) (hq : OwnersOnly s q) (hstep : s.step q = some s') : Table s' := by
  obtain ⟨ht, ret, u, hrun, rfl⟩ := step_spec hstep
  obtain ⟨t, mem, call⟩ := q
  have hsame : SameTable s u → Table u := fun hs => h.congr hs.allList hs.fdList hs.fdsLl
  refine Table.congr (s := u) ?_ rfl rfl rfl
  cases call with
  | create file size =>
    refine hsame (SameTable.of_keeps ?_ hrun)
    exact (keeps_create (fun _ _ => rfl) mem file size).bind fun _ => keeps_pure _
  | remove file =>
    refine hsame (SameTable.of_keeps ?_ hrun)
    exact (keeps_remove (fun _ _ => rfl) (fun _ _ => rfl) mem t file).bind fun _ => keeps_pure _
  | open_ file =>
    obtain ⟨r, u', hopen, hret⟩ := ok_of_run_bind hrun
    obtain ⟨-, rfl⟩ := ok_inj hret
    exact h.open_ ht (h.free_of_unheld hq) (open_spec hopen)
  | exit =>
    obtain ⟨_, u', hexit, hret⟩ := ok_of_run_bind hrun
    obtain ⟨-, rfl⟩ := ok_inj hret
    exact (h.exit hq hexit).1
  | use fd use =>
    by_cases hu : use = .close
    · subst hu
      obtain ⟨_, u', hclose, hret⟩ := ok_of_run_bind hrun
      obtain ⟨-, rfl⟩ := ok_inj hret
      exact h.close hclose
    · exact hsame (SameTable.of_keeps (keeps_use (fun _ _ => rfl) hu mem fd) hrun)

theorem reaches_table {threads : List ℕ} (hthreads : threads.Nodup)
    (h : Reaches Sys.step OwnersOnly (.boot fs threads) s) : Table s :=
  h.invariant (.boot fs hthreads) fun _ _ _ ih hq hstep => step_table ih hq hstep

theorem step_held {q : Request} (h : Table s) (he : e ∈ s.fdList t) (hq : Until t e.fd s q) (hstep : s.step q = some s') :
    e ∈ s'.fdList t := by
  obtain ⟨-, ret, u, hrun, rfl⟩ := step_spec hstep
  obtain ⟨t', mem, call⟩ := q
  change e ∈ u.fdList t
  have hsame : SameTable s u → e ∈ u.fdList t := fun hs => by rwa [hs.fdList]
  cases call with
  | create file size =>
    refine hsame (SameTable.of_keeps ?_ hrun)
    exact (keeps_create (fun _ _ => rfl) mem file size).bind fun _ => keeps_pure _
  | remove file =>
    refine hsame (SameTable.of_keeps ?_ hrun)
    exact (keeps_remove (fun _ _ => rfl) (fun _ _ => rfl) mem t' file).bind fun _ => keeps_pure _
  | open_ file =>
    obtain ⟨r, u', hopen, hret⟩ := ok_of_run_bind hrun
    obtain ⟨-, rfl⟩ := ok_inj hret
    exact (open_spec hopen).mem_fdList he
  | exit =>
    obtain ⟨_, u', hexit, hret⟩ := ok_of_run_bind hrun
    obtain ⟨-, rfl⟩ := ok_inj hret
    rwa [(h.exit hq.1 hexit).2.1]
  | use fd use =>
    by_cases hu : use = .close
    · subst hu
      obtain ⟨_, u', hclose, hret⟩ := ok_of_run_bind hrun
      obtain ⟨-, rfl⟩ := ok_inj hret
      refine h.mem_fdList_close hclose he fun hfd => ?_
      -- the descriptor is closed by the thread that has it
      rcases hq.1 with ⟨e', he', hfd'⟩ | hun
      · exact hq.2 ⟨h.owner he' he (hfd'.trans hfd.symm), beq_iff_eq.2 hfd.symm⟩
      · exact hun t (h.mem_threads he) e he hfd
    · exact hsame (SameTable.of_keeps (keeps_use (fun _ _ => rfl) hu mem fd) hrun)

/-- **A descriptor is found** until its thread closes it. -/
theorem reaches_found (h : Table s) (he : e ∈ s.fdList t) (hr : Reaches Sys.step (Until t e.fd) s s') :
    (getFileP e.fd).run s' = .ok (some e.f, s') := by
  have hinv : Table s' ∧ e ∈ s'.fdList t := by
    refine hr.invariant (P := fun s => Table s ∧ e ∈ s.fdList t) ⟨h, he⟩ ?_
    rintro s q s' ⟨h, he⟩ hq hstep
    exact ⟨step_table h hq.1 hstep, step_held h he hq hstep⟩
  exact hinv.1.getFileP_some hinv.2

/-! ## What is to be true of `open` -/

/-- The call opens the file `f`, which leaves the file system `fs`. -/
def OpensFile (mem : Memory) (file : ℕ) (s : Sys) (f : ℕ) (fs : Fs) : Prop :=
  ∃ n, mem file = some n ∧ n.val.length ≠ 0 ∧ (∀ rf ∈ s.removingList, mem rf.fileName ≠ some n) ∧
    (filesysOpen n).run s.fs = .ok (some f, fs)

/-- There is room for the descriptor, memory for its entry and its stub, and a number that no process has and that is
    not one of the console's or -1. -/
structure Recordable (s : Sys) (t : ℕ) (fs : Fs) : Prop where
  room : (s.fdList t).length < threadFilesMax
  entry : fs.memory 0 = true
  stub : s.fdList t = [] → fs.memory 1 = true
  two_le : 2 ≤ s.globalFd
  ne : s.globalFd ≠ minusOne
  unheld : s.Unheld s.globalFd

/-- The number that `open` returns stands for the file it opened until the thread closes it; if the
    descriptor cannot be recorded, -1 is returned; and with -1 no inode is left open. -/
def OpenRight (mem : Memory) (t file : ℕ) (s : Sys) : Prop :=
  ∃ r s', (open_ mem t file).run s = .ok (r, s') ∧
    (r ≠ minusOne → ∃ f fs, OpensFile mem file s f fs ∧
      ∀ s'', Reaches Sys.step (Until t r) s' s'' → (getFileP r).run s'' = .ok (some f, s'')) ∧
    ((∃ f fs, OpensFile mem file s f fs ∧ ¬ Recordable s t fs) → r = minusOne) ∧
    (r = minusOne → s'.fs.counts = s.fs.counts)

/-! ## The counts -/

theorem Issued.counts {u : Sys} (h : Issued s t f file u) : u.fs.counts = s.fs.counts := by
  cases h with
  | reserved => rfl
  | added _ ha => cases ha <;> rfl

/-! ## Running `open` -/

theorem isRemoving_decide {l : List RemovingFile} (hnames : ∀ rf ∈ l, ∃ m, mem rf.fileName = some m) :
    (isRemoving mem n l).run s = .ok (decide (∃ rf ∈ l, mem rf.fileName = some n), s) := by
  rw [isRemoving_run fun rf hrf => Option.isSome_iff_exists.2 (hnames rf hrf)]
  congr 2
  rw [Bool.eq_iff_iff, any_eq_true, decide_eq_true_iff]
  simp only [beq_iff_eq]

theorem addFd_run (hroom : (s.fdList t).length < threadFilesMax) (hentry : s.fs.memory 0 = true)
    (hstub : s.fdList t = [] → s.fs.memory 1 = true) :
    ∃ k, (addFd t fd f file).run s = .ok ((), (s.added t ⟨fd, f, file⟩).afterMallocs k) := by
  set s2 := (s.afterMallocs 1).withFdList t (s.fdList t ++ [⟨fd, f, file⟩]) with hs2
  have hadd : (threadAddFd t fd f file).run s = .ok (true, s2) := by
    unfold threadAddFd
    rw [run_bind_get, if_pos hroom, run_bind_ok (onFs_malloc s), hentry, if_pos rfl,
      run_bind_modify]
    rfl
  have hself : s2.fdList t = s.fdList t ++ [⟨fd, f, file⟩] := update_self ..
  unfold addFd Sys.added
  rw [run_bind_ok hadd, if_pos rfl, run_bind_get, hself, length_append]
  by_cases hnil : s.fdList t = []
  · have hm : s2.fs.memory 0 = true := hstub hnil
    rw [if_pos (by rw [hnil]; rfl), run_bind_ok (onFs_malloc s2), if_pos hm, if_pos hnil]
    exact ⟨2, rfl⟩
  · have hlen : (s.fdList t).length ≠ 0 := fun h0 => hnil (eq_nil_of_length_eq_zero h0)
    rw [if_neg (by rw [length_singleton]; omega), if_neg hnil]
    exact ⟨1, rfl⟩

theorem OpensFile.counts_ne (h : OpensFile mem file s f fs) (hs : Sound s.fs nodes []) : fs.counts ≠ s.fs.counts := by
  obtain ⟨n, -, -, -, hopen⟩ := h
  obtain ⟨r, fs', hopen', hpost⟩ := hs.open n
  obtain ⟨rfl, rfl⟩ := ok_inj (hopen.symm.trans hopen')
  obtain ⟨nd, hfile⟩ := hpost
  exact hfile.counts_ne hs

theorem Opened.counts_ne {r : ℕ} (ho : Opened mem t file s r s') (h : OpensFile mem file s f fs) (hs : Sound s.fs nodes [])
    (hnames : ∀ rf ∈ s.removingList, ∃ m, mem rf.fileName = some m) : s'.fs.counts ≠ s.fs.counts := by
  have hne := h.counts_ne hs
  obtain ⟨n, hn, hlen, hrem, hopen⟩ := h
  have hname : ∀ {m}, mem file = some m → m = n := fun hm => Option.some.inj (hm.symm.trans hn)
  cases ho with
  | empty hm h0 => exact absurd (hname hm ▸ h0) hlen
  | hidden hm hr =>
    obtain rfl := hname hm
    rw [isRemoving_decide hnames] at hr
    obtain ⟨rf, hrf, hm⟩ := of_decide_eq_true (ok_inj hr).1
    exact absurd hm (hrem rf hrf)
  | absent hm _ ha =>
    obtain rfl := hname hm
    cases ok_inj (ha.symm.trans hopen) with
    | intro h1 _ => cases h1
  | issued hm _ _ ho hi =>
    obtain rfl := hname hm
    obtain ⟨-, rfl⟩ := ok_inj (ho.symm.trans hopen)
    rwa [hi.counts]

theorem open_run_refused (hs : Sound s.fs nodes []) (hfile : mem file = some n)
    (hnames : ∀ rf ∈ s.removingList, ∃ m, mem rf.fileName = some m) (hno : ∀ f fs, ¬ OpensFile mem file s f fs) :
    ∃ s', (open_ mem t file).run s = .ok (minusOne, s') ∧ s'.fs.counts = s.fs.counts := by
  unfold open_
  rw [run_bind_ok (readName_run hfile s)]
  by_cases hempty : n.val.length = 0
  · rw [if_pos hempty]
    exact ⟨s, rfl, rfl⟩
  rw [if_neg hempty, run_bind_get, run_bind_ok (isRemoving_decide hnames)]
  by_cases hrem : ∃ rf ∈ s.removingList, mem rf.fileName = some n
  · rw [decide_eq_true hrem]
    exact ⟨s, rfl, rfl⟩
  rw [decide_eq_false hrem]
  obtain ⟨r, fs, hopen, hpost⟩ := hs.open n
  cases r with
  | some f => exact absurd ⟨n, hfile, hempty, fun rf hrf hm => hrem ⟨rf, hrf, hm⟩, hopen⟩ (hno f fs)
  | none =>
    rw [if_neg Bool.false_ne_true, run_bind_ok (onFs_run hopen)]
    exact ⟨s.withFs fs, rfl, hpost.counts hs⟩

theorem open_run_recorded (hopens : OpensFile mem file s f fs) (hrec : Recordable s t fs)
    (hnames : ∀ rf ∈ s.removingList, ∃ m, mem rf.fileName = some m) :
    ∃ s', (open_ mem t file).run s = .ok (s.globalFd, s') ∧ ⟨s.globalFd, f, file⟩ ∈ s'.fdList t := by
  obtain ⟨n, hfile, hempty, hrem, hopen⟩ := hopens
  have hrem' : ¬ ∃ rf ∈ s.removingList, mem rf.fileName = some n := fun ⟨rf, hrf, hm⟩ => hrem rf hrf hm
  set u := (s.withFs fs).nextFd with hu
  obtain ⟨k, hadd⟩ : ∃ k, (addFd t s.globalFd f file).run u = .ok ((), (u.added t ⟨s.globalFd, f, file⟩).afterMallocs k) :=
    addFd_run hrec.room hrec.entry hrec.stub
  refine ⟨(u.added t ⟨s.globalFd, f, file⟩).afterMallocs k, ?_, ?_⟩
  · unfold open_
    rw [run_bind_ok (readName_run hfile s), if_neg hempty, run_bind_get,
      run_bind_ok (isRemoving_decide hnames), decide_eq_false hrem', if_neg Bool.false_ne_true,
      run_bind_ok (onFs_run hopen)]
    rw [run_bind_modify, if_pos hrec.two_le, run_bind_ok hadd]
    rfl
  · change _ ∈ update s.fdList t (s.fdList t ++ [_]) t
    rw [update_self]
    exact mem_append_right _ mem_cons_self

/-- **What `open` returns is right** exactly if its descriptor can be recorded, where it opens a file: in every state
    that is reached by calls of which each draws a number that no process has and closes what is its own. -/
theorem open_right_iff {fs0 : Fs} {threads : List ℕ} (hthreads : threads.Nodup)
    (hr : Reaches Sys.step OwnersOnly (.boot fs0 threads) s) (hs : Sound s.fs nodes []) (ht : t ∈ s.allList)
    (hfile : mem file = some n) (hnames : ∀ rf ∈ s.removingList, ∃ m, mem rf.fileName = some m) :
    OpenRight mem t file s ↔ ∀ f fs, OpensFile mem file s f fs → Recordable s t fs := by
  have htable := reaches_table hthreads hr
  constructor
  · rintro ⟨r, s', hrun, -, hminus, hcounts⟩ f fs hopens
    by_contra hrec
    exact (open_spec hrun).counts_ne hopens hs hnames (hcounts (hminus ⟨f, fs, hopens, hrec⟩))
  · intro hrec
    by_cases hopens : ∃ f fs, OpensFile mem file s f fs
    · obtain ⟨f, fs, hopens⟩ := hopens
      have hr := hrec f fs hopens
      obtain ⟨s', hrun, hmem⟩ := open_run_recorded hopens hr hnames
      have htable' := htable.open_ ht (htable.free_of_unheld hr.unheld) (open_spec hrun)
      refine ⟨_, s', hrun, fun _ => ⟨f, fs, hopens, fun s'' hreach => ?_⟩, fun ⟨f', fs', hopens', hno⟩ => ?_, fun heq => ?_⟩
      · exact reaches_found htable' hmem hreach
      · exact absurd (hrec f' fs' hopens') hno
      · exact absurd heq hr.ne
    · have hno : ∀ f fs, ¬ OpensFile mem file s f fs := fun f fs h => hopens ⟨f, fs, h⟩
      obtain ⟨s', hrun, hcounts⟩ := open_run_refused hs hfile hnames hno
      exact ⟨_, s', hrun, fun hne => absurd rfl hne, fun _ => rfl, fun _ => hcounts⟩

theorem Opened.sound {r : ℕ} (h : Opened mem t file s r s') (hs : Sound s.fs nodes []) : Sound s'.fs nodes [] := by
  cases h with
  | empty | hidden => exact hs
  | absent _ _ ho =>
    obtain ⟨_, _, ho', hpost⟩ := hs.open _
    obtain ⟨rfl, rfl⟩ := ok_inj (ho.symm.trans ho')
    exact hpost.sound
  | issued _ _ _ ho hi =>
    obtain ⟨_, _, ho', hpost⟩ := hs.open _
    obtain ⟨rfl, rfl⟩ := ok_inj (ho.symm.trans ho')
    obtain ⟨nd, hfile⟩ := hpost
    cases hi with
    | reserved => exact hfile.sound
    | added _ ha => cases ha <;> exact hfile.sound.congr ⟨_, rfl⟩

/-- A process that has opened one file opens the other. -/
theorem open_right_first : ∃ s, Reaches Sys.step OwnersOnly (.boot twoFiles [7, 8]) s ∧ (s.fdList 7).map FdElem.fd = [2] ∧
    OpenRight namesAB 7 2 s := by
  let p (s : Sys) : Bool := decide (s.globalFd = 3 ∧ s.allList = [7, 8] ∧ s.removingList = [] ∧
    (s.fdList 7).map FdElem.fd = [2] ∧ s.Unheld 3) &&
      ((filesysOpen nameB).run s.fs).toOption.map (fun r => r.2.memory 0) == some true
  have hrun : (Sys.step (.boot twoFiles [7, 8]) ⟨7, namesAB, .open_ 1⟩).map p = some true := by decide +kernel
  obtain ⟨_, nodes, hinv, -⟩ := twoFiles_formatted.sim
  have hsound := hinv.sound
  generalize twoFiles = fs at hrun hsound
  obtain ⟨s, hstep, hp⟩ := Option.map_eq_some_iff.1 hrun
  simp only [p, Bool.and_eq_true, decide_eq_true_eq, beq_iff_eq] at hp
  obtain ⟨⟨hnext, hall, hrem, hfds, hun⟩, hmem⟩ := hp
  have hok : OwnersOnly (.boot fs [7, 8]) ⟨7, namesAB, .open_ 1⟩ := fun t ht e he => absurd he not_mem_nil
  have hreach : Reaches Sys.step OwnersOnly (.boot fs [7, 8]) s := .single ⟨_, hok, hstep⟩
  obtain ⟨-, ret, u, hcall, rfl⟩ := step_spec hstep
  obtain ⟨r, _, hopen, hret⟩ := ok_of_run_bind hcall
  obtain ⟨-, rfl⟩ := ok_inj hret
  refine ⟨_, hreach, hfds, (open_right_iff (n := nameB) (by decide) hreach ((open_spec hopen).sound hsound) ?_ rfl ?_).2 ?_⟩
  · rw [hall]
    exact mem_cons_self
  · rw [hrem]
    nofun
  · rintro f fs' ⟨n, hn, -, -, hopen'⟩
    obtain rfl : nameB = n := Option.some.inj hn
    rw [hopen'] at hmem
    have hlen := congrArg length hfds
    rw [length_map] at hlen
    refine ⟨by rw [hlen]; decide, Option.some.inj hmem, fun hnil => ?_, by rw [hnext]; decide, by rw [hnext]; decide,
      by rwa [hnext]⟩
    rw [hnil] at hlen
    cases hlen

/-- A call of `open` returns 18, which stands for no file. -/
def opensInVain (s : Sys) : Bool :=
  match (open_ namesAB 7 1).run s with
  | .ok (r, s') => r == 18 && decide (((getFileP r).run s').toOption.map (·.1) = some none) &&
    decide ((s'.fs.counts 5).map (·.2.1) = some 17)
  | .error _ => false

/-- A process with 16 descriptors opens a file once more, and gets a number that stands for no
    file; the inode is left open once more. -/
theorem open_unrecorded : ∃ s r s', Reaches Sys.step OwnersOnly (.boot twoFiles [7, 8]) s ∧ (s.fdList 7).length = 16 ∧
    (open_ namesAB 7 1).run s = .ok (r, s') ∧ r = 18 ∧ (getFileP r).run s' = .ok (none, s') ∧
    (s.fs.counts 5).map (·.2.1) = some 16 ∧ (s'.fs.counts 5).map (·.2.1) = some 17 ∧ ¬ OpenRight namesAB 7 1 s := by
  obtain ⟨s, hs, hp⟩ := reaches_of_run Sys.step OwnersOnly (.boot twoFiles [7, 8])
    (List.replicate 16 ⟨7, namesAB, .open_ 1⟩)
    (fun s => (s.fdList 7).length == 16 && decide ((s.fs.counts 5).map (·.2.1) = some 16) && opensInVain s) (by decide +kernel)
  simp only [Bool.and_eq_true, beq_iff_eq, decide_eq_true_eq] at hp
  obtain ⟨⟨hlen, hcnt⟩, hvain⟩ := hp
  unfold opensInVain at hvain
  split at hvain
  · rename_i r s' hrun
    simp only [Bool.and_eq_true, beq_iff_eq, decide_eq_true_eq] at hvain
    obtain ⟨⟨rfl, hnone⟩, hcnt'⟩ := hvain
    have hget : (getFileP 18).run s' = .ok (none, s') := by
      cases hx : (getFileP 18).run s' with
      | error e => rw [hx] at hnone; cases hnone
      | ok r' =>
        rw [hx] at hnone
        obtain ⟨f, s''⟩ := r'
        obtain rfl : f = none := Option.some.inj hnone
        obtain rfl : s'' = s' := keeps_getFileP (v := id) _ _ _ _ hx
        rfl
    refine ⟨s, 18, s', hs, hlen, hrun, rfl, hget, hcnt, hcnt', ?_⟩
    rintro ⟨r', s'', hrun', hfound, -⟩
    obtain ⟨rfl, rfl⟩ := ok_inj (hrun.symm.trans hrun')
    obtain ⟨f, fs, -, hf⟩ := hfound (by decide)
    cases hget.symm.trans (hf s' .refl)
  · cases hvain

end Pintos.Files
