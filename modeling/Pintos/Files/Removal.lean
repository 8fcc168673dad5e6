/-
  Files that are removed while they are open.

  `remove` of a file with descriptors puts the descriptors of the caller on the `removing_list`; `open` does
  not find the file any more, and the `close` of the last of these descriptors removes it from the
  directory.
-/
import Pintos.Files.Names
import Pintos.Files.Isolation

namespace Pintos.Files

open Lib Prog Function List

variable {s s' : Sys} {a b : Store} {mem : Memory} {t fd file : ℕ} {e : FdElem} {rf : RemovingFile} {name n : Name}

/-! ## What the log says -/

/-- The name that was given to the `open` which returned the descriptor. -/
def openedAs : List Event → ℕ → Option Name
  | [], _ => none
  | ⟨_, .open_ _, n, .eax v⟩ :: log, fd => if v = fd then n else openedAs log fd
  | _ :: log, fd => openedAs log fd

/-- A `remove` of the name returned true, and no `create` has since. -/
def removed : List Event → Name → Bool
  | [], _ => false
  | ⟨_, .remove _, some n, .eax 1⟩ :: log, name => n == name || removed log name
  | ⟨_, .create .., some n, .eax 1⟩ :: log, name => n != name && removed log name
  | _ :: log, name => removed log name

/-- A `create` of the name returned true after a `remove` had, and no `remove` has since. -/
def recreated : List Event → Name → Bool
  | [], _ => false
  | ⟨_, .remove _, some n, .eax 1⟩ :: log, name => n != name && recreated log name
  | ⟨_, .create .., some n, .eax 1⟩ :: log, name => n == name && removed log name || recreated log name
  | _ :: log, name => recreated log name

/-- The memory of the process that calls has the names of all files on the `removing_list` where they were when the
    descriptors were opened. -/
def PendingNamesOk (s : Sys) (mem : Memory) : Prop := ∀ rf ∈ s.removingList, mem rf.fileName = openedAs s.log rf.fd

/-- It has the names of all descriptors there as well. -/
def NamesOk (s : Sys) (mem : Memory) : Prop :=
  (∀ t ∈ s.allList, ∀ e ∈ s.fdList t, mem e.fileName = openedAs s.log e.fd) ∧ PendingNamesOk s mem

/-- The descriptor is on the file that has the name in the directory. -/
def Sys.OnNamed (s : Sys) (name : Name) (e : FdElem) : Prop :=
  match s.fs.handle e.f with
  | some (k, _) => s.fs.Lists name k
  | none => False

/-- No descriptor was opened with the name; or the caller has one, all it has are on the file of
    that name, and only this file is pending. -/
def RemoveOk (s : Sys) (t : ℕ) (name : Name) : Prop :=
  (∀ t' ∈ s.allList, ∀ e ∈ s.fdList t', openedAs s.log e.fd ≠ some name) ∨
    (∃ e ∈ s.fdList t, openedAs s.log e.fd = some name) ∧
    (∀ e ∈ s.fdList t, openedAs s.log e.fd = some name → s.OnNamed name e) ∧
    ∀ rf ∈ s.removingList, openedAs s.log rf.fd = some name

/-- The calls that keep removals in order. -/
def RemovalOk (s : Sys) (q : Request) : Prop :=
  match q.call with
  | .create .. => True
  | .open_ _ => PendingNamesOk s q.mem ∧ s.Unheld s.globalFd ∧ s.globalFd ≠ minusOne
  | .use _ .close => PendingNamesOk s q.mem
  | .remove file => NamesOk s q.mem ∧ ∀ name ∈ q.mem file, RemoveOk s q.t name
  | .exit => s.fdList q.t = []
  | .use .. => False

instance (s : Sys) (mem : Memory) : Decidable (PendingNamesOk s mem) :=
  inferInstanceAs (Decidable (∀ rf ∈ s.removingList, _))

instance (s : Sys) (mem : Memory) : Decidable (NamesOk s mem) := inferInstanceAs (Decidable (_ ∧ _))

instance (s : Sys) (name : Name) (e : FdElem) : Decidable (s.OnNamed name e) :=
  match h : s.fs.handle e.f with
  | some (k, pos) => decidable_of_iff (s.fs.Lists name k) (by unfold Sys.OnNamed; rw [h])
  | none => isFalse (by unfold Sys.OnNamed; rw [h]; exact id)

instance (s : Sys) (t : ℕ) (name : Name) : Decidable (RemoveOk s t name) := inferInstanceAs (Decidable (_ ∨ _ ∧ _ ∧ _))

instance (s : Sys) : (q : Request) → Decidable (RemovalOk s q)
  | ⟨_, _, .create ..⟩ => inferInstanceAs (Decidable True)
  | ⟨_, _, .open_ _⟩ => inferInstanceAs (Decidable (_ ∧ _ ∧ _))
  | ⟨_, mem, .use _ .close⟩ => inferInstanceAs (Decidable (PendingNamesOk s mem))
  | ⟨t, mem, .remove file⟩ => inferInstanceAs (Decidable (_ ∧ ∀ name ∈ mem file, RemoveOk s t name))
  | ⟨_, _, .exit⟩ => inferInstanceAs (Decidable (_ = _))
  | ⟨_, _, .use _ (.read ..)⟩ | ⟨_, _, .use _ (.write ..)⟩ | ⟨_, _, .use _ (.seek _)⟩ | ⟨_, _, .use _ .tell⟩
  | ⟨_, _, .use _ (.filesize _)⟩ => inferInstanceAs (Decidable False)

/-! ## The invariant -/

/-- Descriptors have open handles of their own; the descriptors on the `removing_list` are those of
    one file that is still in the directory.  `opened` are the names of descriptors, `gone` the
    names that were removed and `back` those that were created again. -/
structure Orderly (opened : ℕ → Option Name) (gone back : Name → Bool) (s : Sys) (a : Store) : Prop where
  sim : Sim s.fs a
  table : Table s
  fd_ne : ∀ {t e}, e ∈ s.fdList t → e.fd ≠ minusOne
  named : ∀ {t e}, e ∈ s.fdList t → ∃ n, opened e.fd = some n
  handle : ∀ {t e}, e ∈ s.fdList t → ∃ k pos, a.handles e.f = some (k, pos)
  handle_inj : ∀ {t t' e e'}, e ∈ s.fdList t → e' ∈ s.fdList t' → e.f = e'.f → e = e'
  pending : ∀ {rf}, rf ∈ s.removingList → ∃ e ∈ s.fdList rf.t, e.fd = rf.fd ∧
    ∃ n k pos, opened rf.fd = some n ∧ a.handles e.f = some (k, pos) ∧ a.names n = some k
  pending_nodup : (s.removingList.map RemovingFile.fd).Nodup
  pending_one : ∀ {rf rf'}, rf ∈ s.removingList → rf' ∈ s.removingList → opened rf.fd = opened rf'.fd
  gone_names : ∀ {n}, gone n = true → a.names n = none ∨ ∃ rf ∈ s.removingList, opened rf.fd = some n
  back_names : ∀ {n}, back n = true → a.names n ≠ none ∧ n.val.length ≠ 0 ∧ ∀ rf ∈ s.removingList, opened rf.fd ≠ some n

/-- What a call leaves of the descriptors, those in `closed` apart. -/
def Keeps (closed : ℕ → Prop) (s : Sys) (a : Store) (s' : Sys) (a' : Store) : Prop :=
  ∀ t, ∀ e ∈ s.fdList t, ¬ closed e.fd → e ∈ s'.fdList t ∧ a'.handles e.f = a.handles e.f ∧
    ∀ k pos, a.handles e.f = some (k, pos) → a'.bytes k = a.bytes k

section
variable {opened opened' : ℕ → Option Name} {gone back gone' back' : Name → Bool} {a' : Store} {fs : Fs}

namespace Orderly

section

variable (h : Orderly opened gone back s a)
include h

theorem congr (htable : Table s') (hfs : s'.fs = s.fs) (hl : s'.fdList = s.fdList)
    (hr : s'.removingList = s.removingList) : Orderly opened gone back s' a := by
  obtain ⟨fs, allList, fdList, globalFd, fdsLl, removingList, log⟩ := s'
  subst hfs hl hr
  exact ⟨h.sim, htable, h.fd_ne, h.named, h.handle, h.handle_inj, h.pending, h.pending_nodup, h.pending_one, h.gone_names,
    h.back_names⟩

theorem congr_opened (ho : ∀ t, ∀ e ∈ s.fdList t, opened' e.fd = opened e.fd) :
    Orderly opened' gone back s a := by
  have hrf : ∀ {rf}, rf ∈ s.removingList → opened' rf.fd = opened rf.fd := by
    intro rf hrf
    obtain ⟨e, he, hfd, -⟩ := h.pending hrf
    rw [← hfd]
    exact ho _ e he
  refine ⟨h.sim, h.table, h.fd_ne, fun he => ?_, h.handle, h.handle_inj, fun hr => ?_, h.pending_nodup, fun hr hr' => ?_,
    fun hg => ?_, fun hb => ⟨(h.back_names hb).1, (h.back_names hb).2.1, fun rf hr => ?_⟩⟩
  · rw [ho _ _ he]
    exact h.named he
  · rw [hrf hr]
    exact h.pending hr
  · rw [hrf hr, hrf hr']
    exact h.pending_one hr hr'
  · rcases h.gone_names hg with hn | ⟨rf, hr, hn⟩
    · exact .inl hn
    · exact .inr ⟨rf, hr, (hrf hr).trans hn⟩
  · rw [hrf hr]
    exact (h.back_names hb).2.2 rf hr

theorem congr_store (hsim : Sim fs a') (hh : a'.handles = a.handles)
    (hn : ∀ rf ∈ s.removingList, ∀ n, opened rf.fd = some n → a'.names n = a.names n)
    (hg : ∀ n, gone' n = true → a'.names n = none ∨ ∃ rf ∈ s.removingList, opened rf.fd = some n)
    (hb : ∀ n, back' n = true →
      a'.names n ≠ none ∧ n.val.length ≠ 0 ∧ ∀ rf ∈ s.removingList, opened rf.fd ≠ some n) :
    Orderly opened gone' back' (s.withFs fs) a' where
  sim := hsim
  table := h.table.congr rfl rfl rfl
  fd_ne := h.fd_ne
  named := h.named
  handle := by rw [hh]; exact h.handle
  handle_inj := h.handle_inj
  pending := by
    intro rf hr
    obtain ⟨e, he, hfd, n, k, pos, ho, hhandle, hname⟩ := h.pending hr
    exact ⟨e, he, hfd, n, k, pos, ho, by rwa [hh], by rwa [hn rf hr n ho]⟩
  pending_nodup := h.pending_nodup
  pending_one := h.pending_one
  gone_names hgone := hg _ hgone
  back_names hback := hb _ hback

theorem pending_bound (hr : rf ∈ s.removingList) (ho : opened rf.fd = some n) :
    a.names n ≠ none := by
  obtain ⟨e, -, -, n', k, pos, ho', -, hname⟩ := h.pending hr
  cases ho'.symm.trans ho
  rw [hname]
  exact Option.some_ne_none k

end

/-! ## `create` -/

theorem keeps_of_handles {s1 : Sys} {closed : ℕ → Prop} (hl : s1.fdList = s.fdList) (hh : a'.handles = a.handles)
    (hb : ∀ k, (∃ f pos, a.handles f = some (k, pos)) → a'.bytes k = a.bytes k) : Keeps closed s a s1 a' := by
  intro t e he _
  refine ⟨hl ▸ he, by rw [hh], fun k pos hk => hb k ⟨e.f, pos, hk⟩⟩

variable {r : Bool}

theorem create {size : ℕ} (h : Orderly opened gone back s a)
    (hrun : (Files.create mem file size).run s = .ok (r, s')) :
    (r = false ∧ ∃ a', Orderly opened gone back s' a' ∧ Keeps (fun _ => False) s a s' a') ∨
    (r = true ∧ ∃ n a', mem file = some n ∧
      Orderly opened (fun m => n != m && gone m) (fun m => n == m && gone m || back m) s' a' ∧
      Keeps (fun _ => False) s a s' a') := by
  have hfalse : ∀ {u}, s = u → ∃ a', Orderly opened gone back u a' ∧ Keeps (fun _ => False) s a u a' := by
    rintro u rfl
    exact ⟨a, h, keeps_of_handles rfl rfl fun _ _ => rfl⟩
  unfold Files.create at hrun
  split_ifs at hrun with hsize
  swap
  · obtain ⟨rfl, hs⟩ := ok_inj hrun
    exact .inl ⟨rfl, hfalse hs⟩
  obtain ⟨n, s1, hread, hrest⟩ := ok_of_run_bind hrun
  obtain ⟨hn, rfl⟩ := ok_of_readName hread
  split_ifs at hrest with h1 h2
  · obtain ⟨rfl, hs⟩ := ok_inj hrest
    exact .inl ⟨rfl, hfalse hs⟩
  · obtain ⟨rfl, hs⟩ := ok_inj hrest
    exact .inl ⟨rfl, hfalse hs⟩
  obtain ⟨fs, hcreate, rfl⟩ := ok_of_onFs hrest
  have hfs : Fs.Step s1.fs (.create n size, .bool r) fs :=
    ⟨show (size : ℤ) < 2 ^ 31 by omega, (run_bind_ok hcreate).trans rfl⟩
  obtain ⟨b, hstep, hsim⟩ := sim_simulates h.sim hfs
  cases hstep with
  | createFail =>
    refine .inl ⟨rfl, a, ?_, keeps_of_handles rfl rfl fun _ _ => rfl⟩
    exact h.congr_store hsim rfl (fun _ _ _ _ => rfl) (fun _ => h.gone_names) fun _ => h.back_names
  | @create _ _ id _ _ hnone hunused =>
    set a1 := (a.bind n (some id)).putBytes id (replicate (size : ℤ).toNat 0) with ha1
    have hnames : ∀ m, a1.names m = if m = n then some id else a.names m := fun m => update_apply ..
    refine .inr ⟨rfl, n, a1, hn, h.congr_store hsim rfl (fun rf hr m ho => ?_) (fun m hg => ?_) (fun m hb => ?_),
      keeps_of_handles rfl rfl fun k hk => ?_⟩
    · rw [hnames, if_neg]
      rintro rfl
      exact h.pending_bound hr ho hnone
    · rw [Bool.and_eq_true, bne_iff_ne] at hg
      rw [hnames, if_neg (Ne.symm hg.1)]
      exact h.gone_names hg.2
    · rw [hnames]
      split_ifs with hm
      · subst hm
        exact ⟨Option.some_ne_none id, h2, fun rf hr ho => h.pending_bound hr ho hnone⟩
      · rw [beq_false_of_ne (Ne.symm hm), Bool.false_and, Bool.false_or] at hb
        exact h.back_names hb
    · obtain ⟨f, pos, hf⟩ := hk
      have hne : k ≠ id := by
        rintro rfl
        exact hunused.2 f pos hf
      exact update_of_ne hne ..

/-! ## `open` -/

theorem afterMallocs_eq (hm : s.fs.MemoryOk) (k : ℕ) : s.afterMallocs k = s := by
  unfold Sys.afterMallocs
  have : (fun n => s.fs.memory (n + k)) = s.fs.memory := by rw [hm]
  rw [this]
  rfl

theorem withHandle {f : ℕ} {p : ℕ × ℕ} (h : Orderly opened gone back s a) (hsim : Sim fs (a.putHandle f (some p)))
    (hf : a.handles f = none) : Orderly opened gone back (s.withFs fs) (a.putHandle f (some p)) ∧
      (∀ t, ∀ e ∈ s.fdList t, e.f ≠ f) ∧ Keeps (fun _ => False) s a (s.withFs fs) (a.putHandle f (some p)) := by
  have hne : ∀ t, ∀ e ∈ s.fdList t, e.f ≠ f := by
    rintro t e he rfl
    obtain ⟨k, pos, hk⟩ := h.handle he
    rw [hf] at hk
    cases hk
  have hkeep : ∀ {t e}, e ∈ s.fdList t → (a.putHandle f (some p)).handles e.f = a.handles e.f :=
    fun he => update_of_ne (hne _ _ he) ..
  refine ⟨⟨hsim, h.table.congr rfl rfl rfl, h.fd_ne, h.named, fun he => ?_, h.handle_inj, fun hr => ?_, h.pending_nodup,
    h.pending_one, h.gone_names, h.back_names⟩, hne, fun _ _ he _ => ⟨he, hkeep he, fun _ _ _ => rfl⟩⟩
  · rw [hkeep he]
    exact h.handle he
  · obtain ⟨e, he, hfd, n, k, pos, ho, hhandle, hname⟩ := h.pending hr
    exact ⟨e, he, hfd, n, k, pos, ho, (hkeep he).trans hhandle, hname⟩

theorem added (h : Orderly opened gone back s a) (ht : t ∈ s.allList) (hlen : (s.fdList t).length < threadFilesMax)
    (h2 : 2 ≤ e.fd) (hfree : s.Free e.fd) (hne : e.fd ≠ minusOne) (hn : ∃ n, opened e.fd = some n)
    (hhandle : ∃ k pos, a.handles e.f = some (k, pos)) (hf : ∀ t, ∀ e' ∈ s.fdList t, e'.f ≠ e.f) :
    Orderly opened gone back (s.added t e) a := by
  have hmem : ∀ {t' e'}, e' ∈ (s.added t e).fdList t' → e' ∈ s.fdList t' ∨ e' = e := by
    intro t' e' he'
    change e' ∈ update s.fdList t (s.fdList t ++ [e]) t' at he'
    rw [Table.fdList_update] at he'
    split_ifs at he' with htt
    · exact (mem_append.1 he').imp (fun he' => htt ▸ he') mem_singleton.1
    · exact .inl he'
  have hsub : ∀ {t' e'}, e' ∈ s.fdList t' → e' ∈ (s.added t e).fdList t' := by
    intro t' e' he'
    change e' ∈ update s.fdList t (s.fdList t ++ [e]) t'
    rw [Table.fdList_update]
    split_ifs with htt
    · exact mem_append_left _ (htt ▸ he')
    · exact he'
  refine ⟨h.sim, h.table.added ht hlen h2 hfree, fun he' => ?_, fun he' => ?_, fun he' => ?_, fun h₁ h₂ hff => ?_,
    fun hr => ?_, h.pending_nodup, h.pending_one, h.gone_names, h.back_names⟩
  · rcases hmem he' with he' | rfl
    · exact h.fd_ne he'
    · exact hne
  · rcases hmem he' with he' | rfl
    · exact h.named he'
    · exact hn
  · rcases hmem he' with he' | rfl
    · exact h.handle he'
    · exact hhandle
  · rcases hmem h₁ with h₁ | he1 <;> rcases hmem h₂ with h₂ | he2
    · exact h.handle_inj h₁ h₂ hff
    · exact absurd (he2 ▸ hff) (hf _ _ h₁)
    · exact absurd (he1 ▸ hff.symm) (hf _ _ h₂)
    · rw [he1, he2]
  · obtain ⟨e', he', hrest⟩ := h.pending hr
    exact ⟨e', hsub he', hrest⟩

theorem keeps_trans {s1 : Sys} {a1 : Store} {closed : ℕ → Prop} (h : Keeps closed s a s1 a1)
    (h' : Keeps (fun _ => False) s1 a1 s' a') : Keeps closed s a s' a' := by
  intro t e he hc
  obtain ⟨he1, hh1, hb1⟩ := h t e he hc
  obtain ⟨he2, hh2, hb2⟩ := h' t e he1 id
  refine ⟨he2, hh2.trans hh1, fun k pos hk => ?_⟩
  rw [hb2 k pos (hh1.trans hk), hb1 k pos hk]

theorem of_added {f : ℕ} (h : Orderly opened gone back s a) (ht : t ∈ s.allList) (h2 : 2 ≤ fd) (hfree : s.Free fd)
    (hne : fd ≠ minusOne) (hn : ∃ n, opened fd = some n) (hhandle : ∃ k pos, a.handles f = some (k, pos))
    (hf : ∀ t, ∀ e ∈ s.fdList t, e.f ≠ f) (hadd : Added s t fd f file s') :
    Orderly opened gone back s' a ∧ Keeps (fun _ => False) s a s' a := by
  have hm := h.sim.memory
  cases hadd with
  | full => exact ⟨h, keeps_of_handles rfl rfl fun _ _ => rfl⟩
  | noMemory =>
    rw [afterMallocs_eq hm]
    exact ⟨h, keeps_of_handles rfl rfl fun _ _ => rfl⟩
  | added hlen =>
    rw [afterMallocs_eq (s := s.added t _) hm]
    refine ⟨h.added ht hlen h2 hfree hne hn hhandle hf, fun t' e' he' _ => ⟨?_, rfl, fun _ _ _ => rfl⟩⟩
    change e' ∈ update s.fdList t (s.fdList t ++ [_]) t'
    rw [Table.fdList_update]
    split_ifs with htt
    · exact mem_append_left _ (htt ▸ he')
    · exact he'

theorem open_ {r : ℕ} (h : Orderly opened gone back s a) (ht : t ∈ s.allList) (hfree : s.Free s.globalFd)
    (hne : s.globalFd ≠ minusOne) (ho : Opened mem t file s r s') :
    ∃ a', Orderly (fun fd => if r = fd then mem file else opened fd) gone back s' a' ∧ Keeps (fun _ => False) s a s' a' := by
  have hminus : ∀ t, ∀ e ∈ s.fdList t, (if minusOne = e.fd then mem file else opened e.fd) = opened e.fd :=
    fun t e he => if_neg (Ne.symm (h.fd_ne he))
  cases ho with
  | empty | hidden => exact ⟨a, h.congr_opened hminus, keeps_of_handles rfl rfl fun _ _ => rfl⟩
  | @absent n fs _ _ hopen =>
    have hfs : Fs.Step s.fs (.open_ n, .file none) fs := ⟨trivial, (run_bind_ok hopen).trans rfl⟩
    obtain ⟨b, hstep, hsim⟩ := sim_simulates h.sim hfs
    cases hstep
    refine ⟨a, ?_, keeps_of_handles rfl rfl fun _ _ => rfl⟩
    have h' : Orderly (fun fd => if minusOne = fd then mem file else opened fd) gone back s a := h.congr_opened hminus
    exact h'.congr_store hsim rfl (fun _ _ _ _ => rfl) (fun _ => h'.gone_names) fun _ => h'.back_names
  | @issued n fs f _ hn _ _ hopen hi =>
    have hfs : Fs.Step s.fs (.open_ n, .file (some f)) fs := ⟨trivial, (run_bind_ok hopen).trans rfl⟩
    obtain ⟨b, hstep, hsim⟩ := sim_simulates h.sim hfs
    cases hstep with
    | @open_ _ id _ _ hnone =>
      have hglobal : ∀ t, ∀ e ∈ s.fdList t, (if s.globalFd = e.fd then mem file else opened e.fd) = opened e.fd :=
        fun t e he => if_neg (Ne.symm (hfree t e he))
      have hnew : Orderly (fun fd => if s.globalFd = fd then mem file else opened fd) gone back s a :=
        h.congr_opened hglobal
      obtain ⟨h', hf, hk⟩ := hnew.withHandle hsim hnone
      cases hi with
      | reserved =>
        exact ⟨_, h'.congr (h'.table.congr rfl rfl rfl) rfl rfl rfl, hk⟩
      | added h2 hadd =>
        have hnext : Orderly (fun fd => if s.globalFd = fd then mem file else opened fd) gone back (s.withFs fs).nextFd
            (a.putHandle f (some (id, 0))) := h'.congr (h'.table.congr rfl rfl rfl) rfl rfl rfl
        obtain ⟨hres, hk'⟩ := hnext.of_added ht h2 hfree hne ⟨n, by rw [← hn]; exact if_pos rfl⟩
          ⟨id, 0, update_self ..⟩ hf hadd
        exact ⟨_, hres, keeps_trans hk hk'⟩

/-! ## `close` -/

theorem mem_dropped {e' : FdElem} {t' : ℕ} (h : Table s) (he : e ∈ s.fdList t) :
    e' ∈ (s.dropped t e.fd).fdList t' ↔ e' ∈ s.fdList t' ∧ e'.fd ≠ e.fd := by
  change e' ∈ update s.fdList t ((s.fdList t).eraseP (·.fd == e.fd)) t' ↔ _
  rw [Table.fdList_update]
  split_ifs with htt
  · rw [htt]
    exact mem_eraseP_fd (h.nodup t) e.fd e'
  · exact ⟨fun he' => ⟨he', fun hfd => htt (h.owner he' he hfd)⟩, fun he' => he'.1⟩

theorem dropped {l : List RemovingFile} (h : Orderly opened gone back s a) (he : e ∈ s.fdList t)
    (hsim : Sim fs (a.putHandle e.f none)) (hl : l.Sublist s.removingList) (hfd : ∀ rf ∈ l, rf.fd ≠ e.fd)
    (hg : ∀ n, gone' n = true → a.names n = none ∨ ∃ rf ∈ l, opened rf.fd = some n) :
    Orderly opened gone' back (((s.dropped t e.fd).withFs fs).withRemovingList l) (a.putHandle e.f none) ∧
      Keeps (· = e.fd) s a (((s.dropped t e.fd).withFs fs).withRemovingList l) (a.putHandle e.f none) := by
  have hkeep : ∀ {t' e'}, e' ∈ s.fdList t' → e'.fd ≠ e.fd → (a.putHandle e.f none).handles e'.f = a.handles e'.f := by
    intro t' e' he' hne
    exact update_of_ne (fun hf => hne (congrArg FdElem.fd (h.handle_inj he' he hf))) ..
  refine ⟨⟨hsim, (h.table.dropped t e.fd).congr rfl rfl rfl, fun he' => ?_, fun he' => ?_, fun he' => ?_,
    fun h₁ h₂ => ?_, fun hr => ?_, h.pending_nodup.sublist (hl.map _), fun hr hr' => h.pending_one (hl.subset hr) (hl.subset hr'),
    fun hn => hg _ hn, fun hb => ?_⟩, fun t' e' he' hne => ⟨?_, hkeep he' hne, fun _ _ _ => rfl⟩⟩
  · exact h.fd_ne ((mem_dropped h.table he).1 he').1
  · exact h.named ((mem_dropped h.table he).1 he').1
  · obtain ⟨hmem, hne⟩ := (mem_dropped h.table he).1 he'
    rw [hkeep hmem hne]
    exact h.handle hmem
  · exact h.handle_inj ((mem_dropped h.table he).1 h₁).1 ((mem_dropped h.table he).1 h₂).1
  · obtain ⟨e', he', heq, n, k, pos, ho, hhandle, hname⟩ := h.pending (hl.subset hr)
    have hne : e'.fd ≠ e.fd := heq ▸ hfd _ hr
    exact ⟨e', (mem_dropped h.table he).2 ⟨he', hne⟩, heq, n, k, pos, ho, (hkeep he' hne).trans hhandle, hname⟩
  · obtain ⟨h1, h2, h3⟩ := h.back_names hb
    exact ⟨h1, h2, fun rf hr => h3 rf (hl.subset hr)⟩
  · exact (mem_dropped h.table he).2 ⟨he', hne⟩

theorem fd_ne_of_erased (h : Orderly opened gone back s a) (hfind : s.removingList.find? (IsEntry t fd) = some rf) :
    ∀ rf' ∈ s.removingList.eraseP (IsEntry t fd), rf'.fd ≠ fd := by
  intro rf' hr' hfd
  obtain ⟨rf1, l1, l2, -, hrf1, hl, herase⟩ := exists_of_eraseP (mem_of_find?_eq_some hfind)
    (find?_some hfind)
  rw [IsEntry, Bool.and_eq_true, beq_iff_eq] at hrf1
  have hnodup := h.pending_nodup
  rw [hl, map_append, map_cons, nodup_middle, ← map_append, nodup_cons] at hnodup
  exact hnodup.1 (mem_map.2 ⟨rf', herase ▸ hr', hfd.trans hrf1.1.symm⟩)

theorem takeWhile_length_iff (h : Orderly opened gone back s a) {l : List RemovingFile} (hl : l.Sublist s.removingList) :
    (l.takeWhile (·.fd == minusOne)).length = l.length ↔ l = [] := by
  cases l with
  | nil => exact ⟨fun _ => rfl, fun _ => rfl⟩
  | cons rf rest =>
    obtain ⟨e, he, hfd, -⟩ := h.pending (hl.subset mem_cons_self)
    have hne : (rf.fd == minusOne) = false := beq_false_of_ne (hfd ▸ h.fd_ne he)
    rw [takeWhile_cons_of_neg (by rw [hne]; exact Bool.false_ne_true)]
    exact ⟨nofun, nofun⟩

theorem close (h : Orderly opened gone back s a) (hnames : ∀ rf ∈ s.removingList, mem rf.fileName = opened rf.fd)
    (hrun : (Files.close mem fd).run s = .ok ((), s')) :
    ∃ a', Orderly opened gone back s' a' ∧ Keeps (· = fd) s a s' a' := by
  by_cases hfree : s.Free fd
  · rw [h.table.close_run_free hfree] at hrun
    obtain ⟨-, rfl⟩ := ok_inj hrun
    exact ⟨a, h, keeps_of_handles rfl rfl fun _ _ => rfl⟩
  unfold Sys.Free at hfree
  push Not at hfree
  obtain ⟨t, e, he, rfl⟩ := hfree
  rw [h.table.close_run he] at hrun
  obtain ⟨_, s1, hfile, hrest⟩ := ok_of_run_bind hrun
  obtain ⟨fs, hclose, rfl⟩ := ok_of_onFs hfile
  obtain ⟨k, pos, hk⟩ := h.handle he
  have hfs : Fs.Step s.fs (.close e.f, .done) fs := ⟨h.sim.isHandle hk, (run_bind_ok hclose).trans rfl⟩
  obtain ⟨b, hstep, hsim⟩ := sim_simulates h.sim hfs
  cases hstep
  -- entries with the descriptor are the owner's
  have hentry : ∀ rf ∈ s.removingList, rf.fd = e.fd → IsEntry t e.fd rf = true := by
    intro rf hr hfd
    obtain ⟨e', he', heq, -⟩ := h.pending hr
    rw [IsEntry, h.table.owner he he' (hfd.symm.trans heq.symm), hfd, beq_self_eq_true, beq_self_eq_true]
    rfl
  cases removeClosed_spec hrest with
  | none hfind =>
    obtain ⟨hord, hkeep⟩ := h.dropped he hsim (List.Sublist.refl _)
      (fun rf hr hfd => find?_eq_none.1 hfind rf hr (hentry rf hr hfd)) fun n => h.gone_names
    exact ⟨_, hord, hkeep⟩
  | @rest rf hfind hlen =>
    have hsub : (s.removingList.eraseP (IsEntry t e.fd)).Sublist s.removingList := eraseP_sublist
    have hne : s.removingList.eraseP (IsEntry t e.fd) ≠ [] := fun hnil => hlen ((h.takeWhile_length_iff hsub).2 hnil)
    obtain ⟨rf', hr'⟩ := exists_mem_of_ne_nil _ hne
    obtain ⟨hord, hkeep⟩ := h.dropped he hsim hsub (h.fd_ne_of_erased hfind) fun n hg =>
      (h.gone_names hg).imp id fun ⟨rf, hr, ho⟩ => ⟨rf', hr', (h.pending_one (hsub.subset hr') hr).trans ho⟩
    exact ⟨_, hord, hkeep⟩
  | @last rf n b fs' hfind hlen hname hremove =>
    have hsub : (s.removingList.eraseP (IsEntry t e.fd)).Sublist s.removingList := eraseP_sublist
    have hnil := (h.takeWhile_length_iff hsub).1 hlen
    have hr := mem_of_find?_eq_some hfind
    have ho : opened rf.fd = some n := (hnames rf hr).symm.trans hname
    -- until it is removed, the file is the only one that is gone and still bound
    have hgone : ∀ m, (n != m && gone m) = true →
        a.names m = none ∨ ∃ rf ∈ s.removingList.eraseP (IsEntry t e.fd), opened rf.fd = some m := by
      intro m hg
      rw [Bool.and_eq_true, bne_iff_ne] at hg
      refine .inl ((h.gone_names hg.2).resolve_right ?_)
      rintro ⟨rf', hr', ho'⟩
      exact hg.1 (Option.some.inj (ho.symm.trans ((h.pending_one hr hr').trans ho')))
    obtain ⟨hord, hkeep⟩ := h.dropped he hsim hsub (h.fd_ne_of_erased hfind) hgone
    have hfs' : Fs.Step fs (.remove n, .bool b) fs' := ⟨trivial, (run_bind_ok hremove).trans rfl⟩
    obtain ⟨c, hstep, hsim'⟩ := sim_simulates hsim hfs'
    cases hstep with
    | removeFail hnone => exact absurd hnone (h.pending_bound hr ho)
    | remove hsome =>
      refine ⟨_, hord.congr_store hsim' rfl ?_ (fun m hg => ?_) fun m hb => ?_,
        keeps_trans hkeep (keeps_of_handles rfl rfl fun _ _ => rfl)⟩
      · intro rf' hr'
        rw [show _ = [] from hnil] at hr'
        cases hr'
      · by_cases hm : m = n
        · rw [hm]
          exact .inl (update_self ..)
        · rw [show (Store.bind _ n none).names m = _ from update_of_ne hm ..]
          refine hord.gone_names ?_
          rw [bne_iff_ne.2 (Ne.symm hm), hg]
          rfl
      · have hm : m ≠ n := by
          rintro rfl
          exact (h.back_names hb).2.2 rf hr ho
        rw [show (Store.bind _ n none).names m = _ from update_of_ne hm ..]
        exact hord.back_names hb

/-! ## `remove` -/

theorem remove_unreferred (h : Orderly opened gone back s a)
    (hfree : ∀ t, ∀ e ∈ s.fdList t, opened e.fd ≠ some n) (hrun : (filesysRemove n).run s.fs = .ok (r, fs)) :
    ∃ a', Keeps (fun _ => False) s a (s.withFs fs) a' ∧
      ((r = false ∧ Orderly opened gone back (s.withFs fs) a') ∨
      (r = true ∧ Orderly opened (fun m => n == m || gone m) (fun m => n != m && back m) (s.withFs fs) a')) := by
  have hfs : Fs.Step s.fs (.remove n, .bool r) fs := ⟨trivial, (run_bind_ok hrun).trans rfl⟩
  obtain ⟨b, hstep, hsim⟩ := sim_simulates h.sim hfs
  cases hstep with
  | removeFail =>
    refine ⟨a, keeps_of_handles rfl rfl fun _ _ => rfl, .inl ⟨rfl, ?_⟩⟩
    exact h.congr_store hsim rfl (fun _ _ _ _ => rfl) (fun _ => h.gone_names) fun _ => h.back_names
  | remove =>
    have hnames : ∀ m, (a.bind n none).names m = if m = n then none else a.names m := fun m => update_apply ..
    refine ⟨a.bind n none, keeps_of_handles rfl rfl fun _ _ => rfl,
      .inr ⟨rfl, h.congr_store hsim rfl (fun rf hr m ho => ?_) (fun m hg => ?_) fun m hb => ?_⟩⟩
    · rw [hnames, if_neg]
      rintro rfl
      obtain ⟨e, he, hfd, -⟩ := h.pending hr
      exact hfree _ e he (hfd ▸ ho)
    · rw [hnames]
      split_ifs with hm
      · exact .inl rfl
      · rw [beq_false_of_ne (Ne.symm hm), Bool.false_or] at hg
        exact h.gone_names hg
    · rw [Bool.and_eq_true, bne_iff_ne] at hb
      rw [hnames, if_neg (Ne.symm hb.1)]
      exact h.back_names hb.2

theorem registered (h : Orderly opened gone back s a) (hfile : mem file = some n)
    (hnames : ∀ t, ∀ e ∈ s.fdList t, mem e.fileName = opened e.fd)
    (hpending : ∀ rf ∈ s.removingList, mem rf.fileName = opened rf.fd) (he : e ∈ s.fdList t) (hn : opened e.fd = some n)
    (hon : ∀ e ∈ s.fdList t, opened e.fd = some n → ∃ k pos, a.handles e.f = some (k, pos) ∧ a.names n = some k)
    (hone : ∀ rf ∈ s.removingList, opened rf.fd = some n) :
    Orderly opened (fun m => n == m || gone m) (fun m => n != m && back m)
      (s.withRemovingList (register mem t file n (s.fdList t) s.removingList)) a := by
  have hall : ∀ {rf}, rf ∈ register mem t file n (s.fdList t) s.removingList → opened rf.fd = some n := by
    intro rf hr
    rcases mem_register hr with hr | ⟨e', he', hn', rfl⟩
    · exact hone rf hr
    · exact (hnames t e' he').symm.trans hn'
  refine ⟨h.sim, h.table.congr rfl rfl rfl, h.fd_ne, h.named, h.handle, h.handle_inj, fun hr => ?_, ?_,
    fun hr hr' => (hall hr).trans (hall hr').symm, fun {m} hg => ?_, fun {m} hb => ?_⟩
  · rcases mem_register hr with hr | ⟨e', he', hn', rfl⟩
    · exact h.pending hr
    · have ho := (hnames t e' he').symm.trans hn'
      obtain ⟨k, pos, hk, hkn⟩ := hon e' he' ho
      exact ⟨e', he', rfl, n, k, pos, ho, hk, hkn⟩
  · refine register_nodup hfile h.pending_nodup fun rf hr e' he' _ hfd => ?_
    obtain ⟨e1, he1, hfd1, -⟩ := h.pending hr
    exact ⟨(hpending rf hr).trans (hone rf hr), h.table.owner he' he1 (hfd.symm.trans hfd1.symm)⟩
  · by_cases hm : n = m
    · subst hm
      have hreg := @register_mem mem t file e n s.removingList _ hfile he ((hnames t e he).trans hn)
      obtain ⟨rf, hr, hfd, -⟩ := hreg
      exact .inr ⟨rf, hr, hfd ▸ hn⟩
    · rw [beq_false_of_ne hm, Bool.false_or] at hg
      exact (h.gone_names hg).imp id fun ⟨rf, hr, ho⟩ => ⟨rf, subset_register hr, ho⟩
  · rw [Bool.and_eq_true, bne_iff_ne] at hb
    obtain ⟨h1, h2, -⟩ := h.back_names hb.2
    exact ⟨h1, h2, fun rf hr ho => hb.1 (Option.some.inj ((hall hr).symm.trans ho))⟩

theorem remove (h : Orderly opened gone back s a)
    (hnames : ∀ t, ∀ e ∈ s.fdList t, mem e.fileName = opened e.fd)
    (hpending : ∀ rf ∈ s.removingList, mem rf.fileName = opened rf.fd)
    (hok : ∀ n, mem file = some n → (∀ t, ∀ e ∈ s.fdList t, opened e.fd ≠ some n) ∨
      (∃ e ∈ s.fdList t, opened e.fd = some n) ∧
      (∀ e ∈ s.fdList t, opened e.fd = some n → ∃ k pos, a.handles e.f = some (k, pos) ∧ a.names n = some k) ∧
      ∀ rf ∈ s.removingList, opened rf.fd = some n)
    (hrun : (Files.remove mem t file).run s = .ok (r, s')) :
    ∃ a', Keeps (fun _ => False) s a s' a' ∧
      ((r = false ∧ Orderly opened gone back s' a') ∨
      (r = true ∧ ∃ n, mem file = some n ∧
        Orderly opened (fun m => n == m || gone m) (fun m => n != m && back m) s' a')) := by
  unfold Files.remove isReferred at hrun
  obtain ⟨n, s1, hread, hrest⟩ := ok_of_run_bind hrun
  obtain ⟨hn, rfl⟩ := ok_of_readName hread
  have hsome : ∀ {t e}, e ∈ s1.fdList t → (mem e.fileName).isSome := fun {t e} he => by
    obtain ⟨m, hm⟩ := h.named he
    rw [hnames t e he, hm]
    rfl
  have hsome' : ∀ rf ∈ s1.removingList, (mem rf.fileName).isSome := fun rf hr => by
    obtain ⟨-, -, -, m, -, -, hm, -⟩ := h.pending hr
    rw [hpending rf hr, hm]
    rfl
  rw [bind_assoc, run_bind_get, bind_assoc, run_bind_ok (referredLoop_run
    (fun t ht => h.table.listed ((h.table.stub_iff t).1 ht)) (fun t _ e he => hsome he) n)] at hrest
  split_ifs at hrest with hfound
  · obtain ⟨t', -, hany⟩ := any_eq_true.1 hfound
    obtain ⟨e', he', hname⟩ := any_eq_true.1 hany
    rw [beq_iff_eq, hnames t' e' he'] at hname
    obtain ⟨⟨e, he, heq⟩, hon, hone⟩ := (hok n hn).resolve_left fun hnone => hnone t' e' he' hname
    have hreferred : (s1.fdList t).any (fun e => mem e.fileName == some n) = true :=
      any_eq_true.2 ⟨e, he, beq_iff_eq.2 ((hnames t e he).trans heq)⟩
    rw [bind_assoc, run_bind_ok (registerLoop_run h.sim.memory hn (fun e he => ⟨hsome he, h.fd_ne he⟩) hsome' false),
      hreferred, Bool.false_or, if_pos rfl, pure_bind, if_pos rfl] at hrest
    cases hrest
    exact ⟨a, keeps_of_handles rfl rfl fun _ _ => rfl,
      .inr ⟨rfl, n, hn, h.registered hn hnames hpending he heq hon hone⟩⟩
  · rw [pure_bind, if_neg Bool.false_ne_true] at hrest
    obtain ⟨fs, hremove, rfl⟩ := ok_of_onFs hrest
    have hfree : ∀ t, ∀ e ∈ s1.fdList t, opened e.fd ≠ some n := by
      intro t' e' he' ho
      refine hfound (any_eq_true.2 ⟨t', h.table.mem_stubs he', any_eq_true.2 ⟨e', he', ?_⟩⟩)
      exact beq_iff_eq.2 ((hnames t' e' he').trans ho)
    obtain ⟨a', hk, hcases⟩ := h.remove_unreferred hfree hremove
    exact ⟨a', hk, hcases.imp id fun ⟨hr, hord⟩ => ⟨hr, n, hn, hord⟩⟩

/-! ## `exit` -/

theorem exit (h : Orderly opened gone back s a) (hnil : s.fdList t = []) (hrun : (Files.exit t).run s = .ok ((), s')) :
    Orderly opened gone back s' a ∧ Keeps (fun _ => False) s a s' a := by
  obtain ⟨htable, hlist, -⟩ := h.table.exit hnil hrun
  obtain ⟨-, rfl⟩ := ok_inj hrun
  have hremoving : s.removingList.filter (·.t != t) = s.removingList := by
    refine filter_eq_self.2 fun rf hr => bne_iff_ne.2 ?_
    rintro rfl
    obtain ⟨e, he, -⟩ := h.pending hr
    rw [hnil] at he
    cases he
  exact ⟨h.congr htable rfl hlist hremoving, keeps_of_handles hlist rfl fun _ _ => rfl⟩

/-! ## Opening removed files -/

theorem addFd_completes (hm : s.fs.MemoryOk) (t fd f file : ℕ) : ∃ s', (addFd t fd f file).run s = .ok ((), s') := by
  have hmalloc : ∀ {u : Sys}, u.fs.MemoryOk → (onFs malloc).run u = .ok (true, u) := fun hu => onFs_run (malloc_run hu)
  unfold addFd
  by_cases hlen : (s.fdList t).length < threadFilesMax
  · have hadd : (threadAddFd t fd f file).run s = .ok (true, s.withFdList t (s.fdList t ++ [⟨fd, f, file⟩])) := by
      unfold threadAddFd
      rw [run_bind_get, if_pos hlen, run_bind_ok (hmalloc hm)]
      rfl
    rw [run_bind_ok hadd, if_pos rfl, run_bind_get]
    split_ifs
    · rw [run_bind_ok (hmalloc (u := s.withFdList t _) hm)]
      exact ⟨_, rfl⟩
    · exact ⟨_, rfl⟩
  · have hadd : (threadAddFd t fd f file).run s = .ok (false, s) := by
      unfold threadAddFd
      rw [run_bind_get, if_neg hlen]
      rfl
    rw [run_bind_ok hadd]
    exact ⟨_, rfl⟩

theorem open_run (h : Orderly opened gone back s a) (hn : mem file = some n)
    (hpending : ∀ rf ∈ s.removingList, mem rf.fileName = opened rf.fd) (t : ℕ) :
    ∃ r s', (Files.open_ mem t file).run s = .ok (r, s') ∧
      ((a.names n = none ∨ ∃ rf ∈ s.removingList, opened rf.fd = some n) → r = minusOne) ∧
      (a.names n ≠ none → n.val.length ≠ 0 → (∀ rf ∈ s.removingList, opened rf.fd ≠ some n) → r = s.globalFd) := by
  have hsome : ∀ rf ∈ s.removingList, (mem rf.fileName).isSome := fun rf hr => by
    obtain ⟨-, -, -, m, -, -, hm, -⟩ := h.pending hr
    rw [hpending rf hr, hm]
    rfl
  unfold Files.open_
  rw [run_bind_ok (readName_run hn s)]
  by_cases hempty : n.val.length = 0
  · rw [if_pos hempty]
    exact ⟨_, _, rfl, fun _ => rfl, fun _ hne => absurd hempty hne⟩
  rw [if_neg hempty, run_bind_get, run_bind_ok (isRemoving_run hsome n s)]
  by_cases hremoving : s.removingList.any (fun rf => mem rf.fileName == some n) = true
  · rw [if_pos hremoving]
    refine ⟨_, _, rfl, fun _ => rfl, fun _ _ hnone => ?_⟩
    obtain ⟨rf, hr, heq⟩ := any_eq_true.1 hremoving
    exact absurd ((hpending rf hr).symm.trans (beq_iff_eq.1 heq)) (hnone rf hr)
  have hnone : ∀ rf ∈ s.removingList, opened rf.fd ≠ some n := fun rf hr ho =>
    hremoving (any_eq_true.2 ⟨rf, hr, beq_iff_eq.2 ((hpending rf hr).trans ho)⟩)
  rw [if_neg hremoving]
  obtain ⟨res, fs, b, hrun, hstep, hsim⟩ := h.sim.call (.open_ n) trivial trivial
  obtain ⟨r, fs', hopen, hret⟩ := ok_of_run_bind hrun
  obtain ⟨rfl, rfl⟩ := ok_inj hret
  rw [run_bind_ok (onFs_run hopen)]
  cases hstep with
  | openFail hunbound => exact ⟨_, _, rfl, fun _ => rfl, fun hb => absurd hunbound hb⟩
  | @open_ _ id f hbound =>
    have hnot : ¬ (a.names n = none ∨ ∃ rf ∈ s.removingList, opened rf.fd = some n) := by
      rw [hbound]
      exact fun hor => hor.elim nofun fun ⟨rf, hr, ho⟩ => hnone rf hr ho
    rw [run_bind_modify]
    split_ifs
    · have hm : (s.withFs fs').nextFd.fs.MemoryOk := hsim.memory
      obtain ⟨s', hadd⟩ := addFd_completes hm t s.globalFd f file
      rw [run_bind_ok hadd]
      exact ⟨_, _, rfl, fun hor => absurd hor hnot, fun _ _ _ => rfl⟩
    · exact ⟨_, _, rfl, fun hor => absurd hor hnot, fun _ _ _ => rfl⟩

end Orderly

end

/-! ## Runs -/

/-- The invariant, for the names that the log has. -/
def Tidy (s : Sys) (a : Store) : Prop := Orderly (openedAs s.log) (removed s.log) (recreated s.log) s a

theorem NamesOk.entries (h : NamesOk s mem) (ht : Table s) : ∀ t, ∀ e ∈ s.fdList t, mem e.fileName = openedAs s.log e.fd :=
  fun _ _ he => h.1 _ (ht.mem_threads he) _ he

theorem Tidy.removeOk (h : Tidy s a) (hok : RemoveOk s t n) : (∀ t, ∀ e ∈ s.fdList t, openedAs s.log e.fd ≠ some n) ∨
    (∃ e ∈ s.fdList t, openedAs s.log e.fd = some n) ∧
    (∀ e ∈ s.fdList t, openedAs s.log e.fd = some n → ∃ k pos, a.handles e.f = some (k, pos) ∧ a.names n = some k) ∧
    ∀ rf ∈ s.removingList, openedAs s.log rf.fd = some n := by
  rcases hok with hnone | ⟨hex, hon, hone⟩
  · exact .inl fun t e he => hnone t (h.table.mem_threads he) e he
  · refine .inr ⟨hex, fun e he ho => ?_, hone⟩
    have hnamed := hon e he ho
    unfold Sys.OnNamed at hnamed
    obtain ⟨k, pos, hk⟩ := h.handle he
    rw [← h.sim.handles, hk] at hnamed
    exact ⟨k, pos, hk, (h.sim.lists_iff n k).1 hnamed⟩

/-- One call keeps the invariant, and the descriptors that it does not close. -/
theorem step_tidy {q : Request} (h : Tidy s a) (hq : RemovalOk s q) (hstep : s.step q = some s') :
    ∃ a', Tidy s' a' ∧ Keeps (fun fd => q.call = .use fd .close) s a s' a' := by
  obtain ⟨ht, ret, u, hrun, rfl⟩ := step_spec hstep
  have hlog := keeps_log _ _ _ _ _ _ hrun
  obtain ⟨t, mem, call⟩ := q
  -- the log has one more call
  suffices hsuf : ∃ a', (∀ log, u.log = log → Orderly (openedAs (⟨t, call, call.name mem, ret⟩ :: log))
      (removed (⟨t, call, call.name mem, ret⟩ :: log)) (recreated (⟨t, call, call.name mem, ret⟩ :: log)) u a') ∧
      Keeps (fun fd => call = .use fd .close) s a u a' by
    obtain ⟨a', hord, hk⟩ := hsuf
    exact ⟨a', (hord u.log rfl).congr ((hord u.log rfl).table.congr rfl rfl rfl) rfl rfl rfl, hk⟩
  have hno : ∀ {a'}, Keeps (fun _ => False) s a u a' → Keeps (fun fd => call = .use fd .close) s a u a' :=
    fun hk t e he _ => hk t e he id
  simp only [hlog, forall_eq']
  cases call with
  | create file size =>
    obtain ⟨r, u', hcreate, hret⟩ := ok_of_run_bind hrun
    cases hret
    rcases Orderly.create h hcreate with ⟨rfl, a', hord, hk⟩ | ⟨rfl, n, a', hn, hord, hk⟩
    · refine ⟨a', ?_, hno hk⟩
      cases (Call.create file size).name mem with
      | none | some => exact hord
    · refine ⟨a', ?_, hno hk⟩
      rwa [show (Call.create file size).name mem = some n from hn]
  | open_ file =>
    obtain ⟨r, u', hopen, hret⟩ := ok_of_run_bind hrun
    cases hret
    obtain ⟨a', hord, hk⟩ := Orderly.open_ h ht (h.table.free_of_unheld hq.2.1) hq.2.2 (open_spec hopen)
    exact ⟨a', hord, hno hk⟩
  | remove file =>
    obtain ⟨r, u', hremove, hret⟩ := ok_of_run_bind hrun
    cases hret
    obtain ⟨a', hk, ⟨rfl, hord⟩ | ⟨rfl, n, hn, hord⟩⟩ := Orderly.remove h (hq.1.entries h.table) hq.1.2
      (fun n hn => h.removeOk (hq.2 n hn)) hremove
    · refine ⟨a', ?_, hno hk⟩
      cases (Call.remove file).name mem with
      | none | some => exact hord
    · refine ⟨a', ?_, hno hk⟩
      rwa [show (Call.remove file).name mem = some n from hn]
  | exit =>
    obtain ⟨_, u', hexit, hret⟩ := ok_of_run_bind hrun
    cases hret
    obtain ⟨hord, hk⟩ := Orderly.exit h hq hexit
    exact ⟨a, hord, hno hk⟩
  | use fd use =>
    cases use with
    | close =>
      obtain ⟨_, u', hclose, hret⟩ := ok_of_run_bind hrun
      cases hret
      obtain ⟨a', hord, hk⟩ := Orderly.close h hq hclose
      refine ⟨a', hord, fun t e he hne => hk t e he ?_⟩
      rintro rfl
      exact hne rfl
    | _ => exact absurd hq id

structure RemovalSafe (s : Sys) : Prop where
  /-- a file that was removed is not opened -/
  hidden : ∀ {t mem file name}, t ∈ s.allList → mem file = some name → RemovalOk s ⟨t, mem, .open_ file⟩ →
    removed s.log name = true → ∃ s', (open_ mem t file).run s = .ok (minusOne, s')
  /-- until it is created again -/
  found : ∀ {t mem file name}, t ∈ s.allList → mem file = some name → RemovalOk s ⟨t, mem, .open_ file⟩ →
    recreated s.log name = true → ∃ fd s', (open_ mem t file).run s = .ok (fd, s') ∧ fd ≠ minusOne
  /-- descriptors are on open files, which can be read and written -/
  usable : ∀ {t e}, t ∈ s.allList → e ∈ s.fdList t → (getFileP e.fd).run s = .ok (some e.f, s) ∧
    ∃ k pos, s.fs.handle e.f = some (k, pos) ∧
      (∀ size, ∃ fs, (fileRead e.f size).run s.fs = .ok (((s.fs.fileBytes k).drop pos).take size.toNat, fs)) ∧
      ∀ buffer size, ∃ n fs, (fileWrite e.f buffer size).run s.fs = .ok (n, fs) ∧
        fs.fileBytes k = overwrite (s.fs.fileBytes k) pos (slice buffer 0 n)
  /-- and stay so until they are closed -/
  kept : ∀ {t e q s'}, t ∈ s.allList → e ∈ s.fdList t → RemovalOk s q → s.step q = some s' →
    q.call ≠ .use e.fd .close → e ∈ s'.fdList t ∧ s'.fs.handle e.f = s.fs.handle e.f ∧
      ∀ k pos, s.fs.handle e.f = some (k, pos) → s'.fs.fileBytes k = s.fs.fileBytes k
  /-- a removed file that no descriptor is on has no entry -/
  erased : ∀ {name k}, removed s.log name = true →
    (∀ t ∈ s.allList, ∀ e ∈ s.fdList t, ∀ pos, s.fs.handle e.f ≠ some (k, pos)) → ¬ s.fs.Lists name k

theorem Tidy.removalSafe (h : Tidy s a) : RemovalSafe s where
  hidden := by
    intro t mem file name _ hn hq hremoved
    obtain ⟨r, s', hrun, hnone, -⟩ := h.open_run hn hq.1 t
    rw [hnone (h.gone_names hremoved)] at hrun
    exact ⟨s', hrun⟩
  found := by
    intro t mem file name _ hn hq hback
    obtain ⟨r, s', hrun, -, hsome⟩ := h.open_run hn hq.1 t
    obtain ⟨h1, h2, h3⟩ := h.back_names hback
    rw [hsome h1 h2 h3] at hrun
    exact ⟨_, s', hrun, hq.2.2⟩
  usable := by
    intro t e _ he
    obtain ⟨k, pos, hk⟩ := h.handle he
    refine ⟨h.table.getFileP_some he, k, pos, by rwa [← h.sim.handles], fun size => ?_, fun buffer size => ?_⟩
    · obtain ⟨r, fs, b, hrun, hstep, -⟩ := h.sim.call (.read e.f size) (h.sim.isHandle hk) trivial
      obtain ⟨bytes, fs', hread, hret⟩ := ok_of_run_bind hrun
      obtain ⟨rfl, rfl⟩ := ok_inj hret
      cases hstep with
      | read hk' =>
        obtain ⟨rfl, rfl⟩ := Prod.mk.inj (Option.some.inj (hk.symm.trans hk'))
        rw [h.sim.fileBytes hk]
        exact ⟨fs', hread⟩
    · obtain ⟨r, fs, b, hrun, hstep, hsim⟩ := h.sim.call (.write e.f buffer size) (h.sim.isHandle hk) trivial
      obtain ⟨m, fs', hwrite, hret⟩ := ok_of_run_bind hrun
      obtain ⟨rfl, rfl⟩ := ok_inj hret
      cases hstep with
      | write hk' =>
        obtain ⟨rfl, rfl⟩ := Prod.mk.inj (Option.some.inj (hk.symm.trans hk'))
        refine ⟨_, fs', hwrite, ?_⟩
        rw [hsim.fileBytes (update_self ..), h.sim.fileBytes hk]
        exact update_self ..
  kept := by
    intro t e q s' _ he hq hstep hne
    obtain ⟨a', h', hkeeps⟩ := step_tidy h hq hstep
    obtain ⟨he', hhandle, hbytes⟩ := hkeeps t e he hne
    refine ⟨he', by rw [← h.sim.handles, ← h'.sim.handles, hhandle], fun k pos hk => ?_⟩
    rw [← h.sim.handles] at hk
    rw [h.sim.fileBytes hk, h'.sim.fileBytes (hhandle.trans hk), hbytes k pos hk]
  erased := by
    intro name k hremoved hfree hlists
    rw [h.sim.lists_iff] at hlists
    rcases h.gone_names hremoved with hnone | ⟨rf, hr, ho⟩
    · rw [hlists] at hnone
      cases hnone
    · obtain ⟨e, he, -, n, k', pos, ho', hk, hname⟩ := h.pending hr
      cases ho'.symm.trans ho
      cases hname.symm.trans hlists
      rw [h.sim.handles] at hk
      exact hfree _ (h.table.mem_threads he) e he pos hk

/-- **Removed files.**  In every run of `RemovalOk` calls, removed files are not opened until they
    are created again, their descriptors stay usable, and they leave the directory with their last
    descriptor. -/
theorem removal_safe {fs : Fs} {threads : List ℕ} (hfs : fs.Formatted) (hthreads : threads.Nodup)
    (h : Reaches Sys.step RemovalOk (.boot fs threads) s) : RemovalSafe s := by
  have hinv : ∃ a, Tidy s a := by
    refine h.invariant (P := fun s => ∃ a, Tidy s a) ?_ fun _ _ _ ⟨a, h⟩ hq hstep => ?_
    · obtain ⟨a, hsim⟩ := hfs.sim
      exact ⟨a, hsim, .boot fs hthreads, nofun, nofun, nofun, nofun, nofun, nodup_nil, nofun, nofun, nofun⟩
    · obtain ⟨a', h', -⟩ := step_tidy h hq hstep
      exact ⟨a', h'⟩
  obtain ⟨a, h⟩ := hinv
  exact h.removalSafe

/-- A process opens a file, removes it and closes it, while another one has the other file open; the file is created
    again and opened again. -/
theorem removal_safe_again : ∃ s, Reaches Sys.step RemovalOk (.boot twoFiles [7, 8]) s ∧
    recreated s.log nameA = true ∧ (s.fdList 7).map (fun e => openedAs s.log e.fd) = [some nameA] ∧ RemovalSafe s := by
  obtain ⟨s, hs, hp⟩ := reaches_of_run Sys.step RemovalOk (.boot twoFiles [7, 8])
    [⟨7, namesAB, .open_ 1⟩, ⟨8, namesAB, .open_ 2⟩, ⟨7, namesAB, .remove 1⟩, ⟨7, namesAB, .use 2 .close⟩,
      ⟨8, namesAB, .create 1 3⟩, ⟨7, namesAB, .open_ 1⟩]
    (fun s => recreated s.log nameA = true ∧ (s.fdList 7).map (fun e => openedAs s.log e.fd) = [some nameA])
    (by decide +kernel)
  obtain ⟨hback, hopened⟩ := of_decide_eq_true hp
  exact ⟨s, hs, hback, hopened, removal_safe twoFiles_formatted (by decide) hs⟩

/-- A process has a file open when another one removes it; when it closes its descriptor, the entry
    of the file stays.  A process removes two files that it has open and closes the one; its entry
    stays, and it is opened again. -/
theorem removed_file_stays :
    (∃ s, Reaches Sys.step anyStep (.boot twoFiles [7, 8]) s ∧ removed s.log nameA = true ∧
      (∀ t ∈ s.allList, s.fdList t = []) ∧ s.fs.Lists nameA 4) ∧
    ∃ s, Reaches Sys.step anyStep (.boot twoFiles [7, 8]) s ∧ removed s.log nameA = true ∧
      (∀ t ∈ s.allList, ∀ e ∈ s.fdList t, openedAs s.log e.fd ≠ some nameA) ∧ s.fs.Lists nameA 4 ∧
      ((open_ namesAB 8 1).run s).toOption.map Prod.fst = some 4 := by
  obtain ⟨s, hs, hp⟩ := reaches_of_run Sys.step anyStep (.boot twoFiles [7, 8])
    [⟨7, namesAB, .open_ 1⟩, ⟨8, namesAB, .remove 1⟩, ⟨7, namesAB, .use 2 .close⟩]
    (fun s => decide (removed s.log nameA = true ∧ (∀ t ∈ s.allList, s.fdList t = []) ∧ s.fs.Lists nameA 4))
    (by decide +kernel)
  obtain ⟨s', hs', hp'⟩ := reaches_of_run Sys.step anyStep (.boot twoFiles [7, 8])
    [⟨7, namesAB, .open_ 1⟩, ⟨7, namesAB, .open_ 2⟩, ⟨7, namesAB, .remove 1⟩, ⟨7, namesAB, .remove 2⟩,
      ⟨7, namesAB, .use 2 .close⟩]
    (fun s => decide (removed s.log nameA = true ∧
      (∀ t ∈ s.allList, ∀ e ∈ s.fdList t, openedAs s.log e.fd ≠ some nameA) ∧ s.fs.Lists nameA 4 ∧
      ((open_ namesAB 8 1).run s).toOption.map Prod.fst = some 4)) (by decide +kernel)
  exact ⟨⟨s, hs, of_decide_eq_true hp⟩, s', hs', of_decide_eq_true hp'⟩

end Pintos.Files
