/-
  Whose descriptors are they?

  `get_file_p` searches the descriptors of all threads, so that a call may use the descriptor of another
  process (`foreign_descriptor_works`).
-/
import Pintos.Files.Table

namespace Pintos.Files

open Lib Prog Function List

variable {s s' : Sys} {mem : Memory} {t fd file : ℕ} {e : FdElem}

/-- The thread obtained the descriptor from `open`, and has not closed it. -/
def owns : List Event → ℕ → ℕ → Bool
  | [], _, _ => false
  | ⟨t', .open_ _, _, .eax v⟩ :: log, t, fd => t' == t && v == fd && v != minusOne || owns log t fd
  | ⟨t', .use fd' .close, _, _⟩ :: log, t, fd => !(t' == t && fd' == fd) && owns log t fd
  | _ :: log, t, fd => owns log t fd

/-- Some `open` returned the descriptor. -/
def EverIssued (log : List Event) (fd : ℕ) : Prop :=
  ∃ ev ∈ log, (∃ file, ev.call = .open_ file) ∧ ev.ret = .eax fd ∧ fd ≠ minusOne

/-- No process has the descriptor. -/
def Sys.Unheld (s : Sys) (fd : ℕ) : Prop := ∀ t ∈ s.allList, ∀ e ∈ s.fdList t, e.fd ≠ fd

instance (s : Sys) (fd : ℕ) : Decidable (s.Unheld fd) := inferInstanceAs (Decidable (∀ t ∈ s.allList, _))

/-- The keyboard and the screen. -/
def Use.isConsole (fd : ℕ) : Use → Bool
  | .read .. => fd == 0
  | .write .. => fd == 1
  | _ => false

/-- The result when there is no file. -/
def Use.failure : Use → Ret
  | .close | .seek _ => .void
  | .read .. => .data minusOne []
  | .write .. => .eax 0
  | .tell => .eax minusOne
  | .filesize eax => .eax eax

/-- The descriptor of a call is one of the process, or no process has it and it is not the
    console; a new one is new; and a process exits without descriptors. -/
def IsolationOk (s : Sys) (q : Request) : Prop :=
  match q.call with
  | .open_ _ => s.Unheld s.globalFd ∧ s.globalFd ≠ minusOne
  | .use fd u => (∃ e ∈ s.fdList q.t, e.fd = fd) ∨ s.Unheld fd ∧ u.isConsole fd = false
  | .exit => s.fdList q.t = []
  | .create .. | .remove _ => False

instance (s : Sys) : (q : Request) → Decidable (IsolationOk s q)
  | ⟨_, _, .open_ _⟩ => inferInstanceAs (Decidable (_ ∧ _))
  | ⟨_, _, .use _ _⟩ => inferInstanceAs (Decidable (_ ∨ _ ∧ _))
  | ⟨_, _, .exit⟩ => inferInstanceAs (Decidable (_ = _))
  | ⟨_, _, .create ..⟩ | ⟨_, _, .remove _⟩ => inferInstanceAs (Decidable False)

theorem Table.free_of_unheld (h : Table s) (hu : s.Unheld fd) : s.Free fd :=
  fun _ _ he => hu _ (h.mem_threads he) _ he

/-- **Without a file** a call changes nothing. -/
theorem use_free {u : Use} (h : Table s) (hfree : s.Free fd) (hc : u.isConsole fd = false) :
    (u.exec mem fd).run s = .ok (u.failure, s) := by
  have hnone := h.getFileP_none hfree
  cases u with
  | close =>
    have hrun : (Files.close mem fd).run s = .ok ((), s) := h.close_run_free hfree
    exact run_bind_ok hrun
  | read buffer length keys =>
    have hrun : (Files.read fd buffer length keys).run s = .ok ((minusOne, []), s) := by
      unfold Files.read
      split_ifs with hb h0
      · rw [Use.isConsole, h0] at hc
        cases hc
      · rw [run_bind_ok hnone]
        rfl
      · rfl
    exact run_bind_ok hrun
  | write buffer bytes length =>
    have hrun : (Files.write fd buffer bytes length).run s = .ok (0, s) := by
      unfold Files.write
      split_ifs with hb h1
      · rw [Use.isConsole, h1] at hc
        cases hc
      · rw [run_bind_ok hnone]
        rfl
      · rfl
    exact run_bind_ok hrun
  | seek position =>
    have hrun : (Files.seek fd position).run s = .ok ((), s) := by
      unfold Files.seek
      rw [run_bind_ok hnone]
      rfl
    exact run_bind_ok hrun
  | tell =>
    have hrun : (Files.tell fd).run s = .ok (minusOne, s) := by
      unfold Files.tell
      rw [run_bind_ok hnone]
      rfl
    exact run_bind_ok hrun
  | filesize eax =>
    have hrun : (Files.filesize fd eax).run s = .ok (eax, s) := by
      unfold Files.filesize
      rw [run_bind_ok hnone]
      rfl
    exact run_bind_ok hrun

/-! ## Who owns the descriptors in the lists -/

structure Owned (s : Sys) : Prop where
  table : Table s
  owns : ∀ {t e}, e ∈ s.fdList t → Files.owns s.log t e.fd = true

theorem everIssued_of_owns {log : List Event} (h : owns log t fd = true) : EverIssued log fd := by
  induction log with
  | nil => cases h
  | cons ev log ih =>
    have hold : owns log t fd = true → EverIssued (ev :: log) fd := by
      intro ho
      obtain ⟨ev', hmem, hev'⟩ := ih ho
      exact ⟨ev', mem_cons_of_mem _ hmem, hev'⟩
    unfold owns at h
    split at h
    · cases h
    · rename_i heq
      obtain ⟨rfl, rfl⟩ := cons.inj heq
      rcases Bool.or_eq_true_iff.1 h with h | h
      · simp only [Bool.and_eq_true, beq_iff_eq, bne_iff_ne] at h
        obtain ⟨⟨-, rfl⟩, hne⟩ := h
        exact ⟨_, mem_cons_self, ⟨_, rfl⟩, rfl, hne⟩
      · exact hold h
    · rename_i heq
      obtain ⟨rfl, rfl⟩ := cons.inj heq
      exact hold (Bool.and_eq_true_iff.1 h).2
    · rename_i heq
      obtain ⟨rfl, rfl⟩ := cons.inj heq
      exact hold h

theorem Owned.free_of_not_issued (h : Owned s) (hi : ¬ EverIssued s.log fd) : s.Free fd := by
  rintro t e he rfl
  exact hi (everIssued_of_owns (h.owns he))

theorem owns_record {ev : Event} {log : List Event} (hev : ∀ fd, ev.call ≠ .use fd .close) (h : owns log t fd = true) :
    owns (ev :: log) t fd = true := by
  unfold owns
  split
  · rename_i heq
    cases heq
  · rename_i heq
    obtain ⟨-, rfl⟩ := cons.inj heq
    rw [h, Bool.or_true]
  · rename_i heq
    obtain ⟨rfl, -⟩ := cons.inj heq
    exact absurd rfl (hev _)
  · rename_i heq
    obtain ⟨-, rfl⟩ := cons.inj heq
    exact h

theorem Owned.record_of_same {ev : Event} (h : Owned s) (hs : SameTable s s') (hev : ∀ fd, ev.call ≠ .use fd .close) :
    Owned (s'.record ev) := by
  refine ⟨h.table.congr hs.allList hs.fdList hs.fdsLl, fun {t e} he => ?_⟩
  change e ∈ s'.fdList t at he
  rw [hs.fdList] at he
  change Files.owns (ev :: s'.log) t e.fd = true
  rw [hs.log]
  exact owns_record hev (h.owns he)

theorem Opened.fdList {r : ℕ} (h : Opened mem t file s r s') {t' : ℕ} (he : e ∈ s'.fdList t') :
    e ∈ s.fdList t' ∨ t' = t ∧ e.fd = r ∧ r = s.globalFd := by
  cases h with
  | empty | hidden | absent => exact .inl he
  | @issued _ fs _ _ _ _ _ _ hi =>
    cases hi with
    | reserved => exact .inl he
    | added _ ha =>
      cases ha with
      | full | noMemory => exact .inl he
      | added =>
        change e ∈ update s.fdList t (s.fdList t ++ [_]) t' at he
        rw [Table.fdList_update] at he
        split_ifs at he with htt
        · rcases mem_append.1 he with he | he
          · exact .inl (htt ▸ he)
          · rw [mem_singleton.1 he]
            exact .inr ⟨htt, rfl, rfl⟩
        · exact .inl he

theorem Owned.open_ (h : Owned s) (ht : t ∈ s.allList) (hok : s.Unheld s.globalFd ∧ s.globalFd ≠ minusOne) {r : ℕ}
    (ho : Opened mem t file s r s') (n : Option Name) : Owned (s'.record ⟨t, .open_ file, n, .eax r⟩) := by
  have htable := h.table.open_ ht (h.table.free_of_unheld hok.1) ho
  refine ⟨htable.congr rfl rfl rfl, fun {t' e} he => ?_⟩
  change (t == t' && r == e.fd && r != minusOne || Files.owns s'.log t' e.fd) = true
  rw [ho.frame.2.2]
  rcases ho.fdList he with he | ⟨rfl, rfl, hr⟩
  · rw [h.owns he, Bool.or_true]
  · have hne : (e.fd != minusOne) = true := by rw [hr]; simpa using hok.2
    rw [hne]
    simp

theorem Owned.close (h : Owned s) (hrun : (Files.close mem fd).run s = .ok ((), s')) (n : Option Name) (r : Ret) :
    Owned (s'.record ⟨t, .use fd .close, n, r⟩) := by
  have htable := h.table.close hrun
  refine ⟨htable.congr rfl rfl rfl, fun {t' e'} he' => ?_⟩
  change e' ∈ s'.fdList t' at he'
  change (!(t == t' && fd == e'.fd) && Files.owns s'.log t' e'.fd) = true
  -- the descriptor is not the one that was closed, and was there before
  have hold : e' ∈ s.fdList t' ∧ e'.fd ≠ fd ∧ s'.log = s.log := by
    rcases h.table.close_spec hrun with ⟨hfree, rfl⟩ | ⟨t1, e1, he1, rfl, hs⟩
    · exact ⟨he', hfree t' e' he', rfl⟩
    · rw [hs.fdList] at he'
      change e' ∈ update s.fdList t1 _ t' at he'
      rw [Table.fdList_update] at he'
      split_ifs at he' with htt
      · rw [mem_eraseP_fd (h.table.nodup t1)] at he'
        exact ⟨htt ▸ he'.1, he'.2, hs.log⟩
      · exact ⟨he', fun hfd => htt (h.table.owner he' he1 hfd), hs.log⟩
  have hne : (fd == e'.fd) = false := by simpa using fun hfd => hold.2.1 hfd.symm
  rw [hold.2.2, h.owns hold.1, hne, Bool.and_false]
  rfl

theorem Owned.exit (h : Owned s) (hnil : s.fdList t = []) (hrun : (Files.exit t).run s = .ok ((), s')) (n : Option Name)
    (r : Ret) : Owned (s'.record ⟨t, .exit, n, r⟩) := by
  obtain ⟨htable, hlist, hlog⟩ := h.table.exit hnil hrun
  refine ⟨htable.congr rfl rfl rfl, fun {t' e} he => ?_⟩
  change e ∈ s'.fdList t' at he
  change Files.owns s'.log t' e.fd = true
  rw [hlist] at he
  rw [hlog]
  exact h.owns he

theorem step_owned {q : Request} (h : Owned s) (hq : IsolationOk s q) (hstep : s.step q = some s') : Owned s' := by
  obtain ⟨ht, ret, u, hrun, rfl⟩ := step_spec hstep
  obtain ⟨t, mem, call⟩ := q
  cases call with
  | create | remove => exact absurd hq id
  | open_ file =>
    obtain ⟨r, u', hopen, hret⟩ := ok_of_run_bind hrun
    cases hret
    exact h.open_ ht hq (open_spec hopen) _
  | exit =>
    obtain ⟨_, u', hexit, hret⟩ := ok_of_run_bind hrun
    cases hret
    exact h.exit hq hexit _ _
  | use fd use =>
    by_cases hu : use = .close
    · subst hu
      obtain ⟨_, u', hclose, hret⟩ := ok_of_run_bind hrun
      cases hret
      exact h.close hclose _ _
    · have hs := SameTable.of_keeps (keeps_use (fun _ _ => rfl) hu mem fd) hrun
      refine h.record_of_same hs fun fd' heq => hu ?_
      exact (Call.use.inj heq).2

theorem reaches_owned {fs : Fs} {threads : List ℕ} (hthreads : threads.Nodup)
    (h : Reaches Sys.step IsolationOk (.boot fs threads) s) : Owned s :=
  h.invariant ⟨.boot fs hthreads, nofun⟩ fun _ _ _ ih hq hstep => step_owned ih hq hstep

/-- **Foreign descriptors do nothing.**  In every run of `IsolationOk` calls, a call that names a
    descriptor the process did not obtain from `open`, or has closed, changes nothing and returns
    what it returns for a descriptor that was never issued. -/
theorem foreign_descriptor_inert {fs : Fs} {threads : List ℕ} (hthreads : threads.Nodup)
    (h : Reaches Sys.step IsolationOk (.boot fs threads) s) {u : Use} (hq : IsolationOk s ⟨t, mem, .use fd u⟩)
    (hforeign : owns s.log t fd = false) :
    (u.exec mem fd).run s = .ok (u.failure, s) ∧
      ∀ fd', 2 ≤ fd' → ¬ EverIssued s.log fd' → (u.exec mem fd').run s = .ok (u.failure, s) := by
  have hinv := reaches_owned hthreads h
  refine ⟨?_, fun fd' h2 hissued => ?_⟩
  · rcases hq with ⟨e, he, rfl⟩ | ⟨hu, hc⟩
    · rw [hinv.owns he] at hforeign
      cases hforeign
    · exact use_free hinv.table (hinv.table.free_of_unheld hu) hc
  · refine use_free hinv.table (hinv.free_of_not_issued hissued) ?_
    cases u with
    | read => exact beq_false_of_ne (by omega)
    | write => exact beq_false_of_ne (by omega)
    | _ => rfl

/-- Two processes open a file each; the one closes its descriptor and tries to read from it. -/
theorem foreign_descriptor_inert_closed : ∃ s, Reaches Sys.step IsolationOk (.boot twoFiles [7, 8]) s ∧
    owns s.log 8 3 = false ∧
    ((Use.read 1 3 fun _ => 0).exec namesAB 3).run s = .ok (.data minusOne [], s) := by
  obtain ⟨s, hs, hp⟩ := reaches_of_run Sys.step IsolationOk (.boot twoFiles [7, 8])
    [⟨7, namesAB, .open_ 1⟩, ⟨8, namesAB, .open_ 2⟩, ⟨8, namesAB, .use 3 .close⟩]
    (fun s => !owns s.log 8 3 && decide (IsolationOk s ⟨8, namesAB, .use 3 (.read 1 3 fun _ => 0)⟩)) (by decide +kernel)
  rw [Bool.and_eq_true, Bool.not_eq_true', decide_eq_true_iff] at hp
  exact ⟨s, hs, hp.1, (foreign_descriptor_inert (by decide) hs hp.2 hp.1).1⟩

/-- A process reads from the file of another process, and closes the descriptor of the other. -/
theorem foreign_descriptor_works : ∃ s, Reaches Sys.step anyStep (.boot twoFiles [7, 8]) s ∧ owns s.log 8 2 = false ∧
    (s.fs.files.get 2).map File.pos = some 0 ∧
    (((Use.read 1 3 fun _ => 0).exec namesAB 2).run s).toOption.map (fun r => (r.1, (r.2.fs.files.get 2).map File.pos)) =
      some (.data 3 [0, 0, 0], some 3) ∧
    (s.fdList 7).map FdElem.fd = [2] ∧
    ((Use.close.exec namesAB 2).run s).toOption.map (fun r => r.2.fdList 7) = some [] := by
  obtain ⟨s, hs, hp⟩ := reaches_of_run Sys.step anyStep (.boot twoFiles [7, 8]) [⟨7, namesAB, .open_ 1⟩]
    (fun s => decide (owns s.log 8 2 = false ∧ (s.fs.files.get 2).map File.pos = some 0 ∧
      (((Use.read 1 3 fun _ => 0).exec namesAB 2).run s).toOption.map (fun r => (r.1, (r.2.fs.files.get 2).map File.pos)) =
        some (.data 3 [0, 0, 0], some 3) ∧
      (s.fdList 7).map FdElem.fd = [2] ∧
      ((Use.close.exec namesAB 2).run s).toOption.map (fun r => r.2.fdList 7) = some [])) (by decide +kernel)
  exact ⟨s, hs, of_decide_eq_true hp⟩

end Pintos.Files
