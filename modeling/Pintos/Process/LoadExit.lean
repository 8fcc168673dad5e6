/-
  Loading a program and the end of the process.

  `load` may fail at any point; what it took until then belongs to the page directory, which `process_exit`
  destroys, and the executable is closed by the one or the other.
-/
import Pintos.Process.Segment

namespace Pintos.Process

open Lib Prog List

section
variable {p t : Proc} {dirs : List ℕ} {role : ℕ → Option Paging.Role} {file : ℕ} {c : List UInt8} {I : Fs → Prop}

theorem loadPhdr_returns {pos : ℕ} (b : List UInt8) (h : Loading p dirs role) (hopen : OpenOn p.fs file c pos) (hI : FileFrame file I)
    (hs : I p.fs) : Prog.Returns (loadPhdr (Phdr.ofBytes b) file) p fun _ t => ∃ role', Goes dirs p [] t role' [] ∧ I t.fs := by
  refine (validateSegment_returns b hopen).bind ?_
  rintro accepted _ ⟨rfl, hacc⟩
  cases accepted with
  | false => exact .pure ⟨role, h.refl, hs⟩
  | true => exact (loadValid_returns (hacc rfl) h hopen hI hs).mono fun _ t ⟨role', hgo, hIt, _⟩ => ⟨role', hgo, hIt⟩

/-- **The program headers** are loaded, or some of them. -/
theorem loadHeaders_returns (hI : FileFrame file I) (hfile : ∀ {s}, I s → ∃ pos, OpenOn s file c pos) :
    ∀ (n : ℕ) (fileOfs : ℤ) (p : Proc) (role : ℕ → Option Paging.Role), Loading p dirs role → I p.fs →
      Prog.Returns (loadHeaders file n fileOfs) p fun _ t => ∃ role', Goes dirs p [] t role' [] ∧ I t.fs
  | 0, _, _, role, h, hs => .pure ⟨role, h.refl, hs⟩
  | n + 1, fileOfs, p, role, h, hs => by
    obtain ⟨pos, hopen⟩ := hfile hs
    refine .bind_run (onFs_run hopen.length.1) ?_
    by_cases hofs : fileOfs < 0 ∨ (c.length : ℤ) < fileOfs
    · rw [if_pos hofs]
      exact .pure ⟨role, h.refl, hs⟩
    rw [if_neg hofs]
    refine (onFs_returns (hopen.seek (by omega) hI hs)).bind ?_
    rintro _ _ ⟨fs, ⟨hIfs, hopen'⟩, rfl⟩
    have hgo : Goes dirs p [] { p with fs } role [] := h.withFs fs
    refine (onFs_returns (hopen'.read 32 hI hIfs)).bind ?_
    rintro bytes _ ⟨fs', ⟨hIfs', hopen'', -⟩, rfl⟩
    have hgo' : Goes dirs p [] { p with fs := fs' } role [] := hgo.trans (hgo.loading.withFs fs')
    -- the headers behind this one
    have hrest : ∀ q role', Goes dirs p [] q role' [] → I q.fs →
        Prog.Returns (loadHeaders file n (fileOfs + 32)) q fun _ t => ∃ role', Goes dirs p [] t role' [] ∧ I t.fs := by
      intro q role' hq hIq
      refine (loadHeaders_returns hI hfile n (fileOfs + 32) q role' hq.loading hIq).mono ?_
      rintro _ t ⟨role'', ht, hIt⟩
      exact ⟨role'', hq.trans ht, hIt⟩
    have hstop : Prog.Returns (pure false : LoadM Bool) { p with fs := fs' } fun _ t => ∃ role', Goes dirs p [] t role' [] ∧ I t.fs :=
      .pure ⟨role, hgo', hIfs'⟩
    dsimp only
    split_ifs with hlen htype hload
    · exact hstop
    · exact hstop
    · refine (loadPhdr_returns bytes hgo'.loading hopen'' hI hIfs').bind ?_
      rintro loaded q ⟨role', hq, hIq⟩
      cases loaded with
      | false => exact .pure ⟨role', hgo'.trans hq, hIq⟩
      | true => exact hrest q role' (hgo'.trans hq) hIq
    · exact hrest _ role hgo' hIfs'

theorem setupStack_returns (h : Loading p dirs role) :
    Prog.Returns setupStack p fun _ t => ∃ role', Goes dirs p [] t role' [] ∧ t.fs = p.fs := by
  rcases h.palloc true true with hnone | ⟨k, b, hb, hfresh, hpage, hram, hsome⟩
  · exact .bind_run hnone (.pure ⟨role, h.called, rfl⟩)
  · obtain ⟨hgo, hk, -, -⟩ := h.take hfresh hpage hram hb
    refine .bind_run hsome ((hgo.loading.install hk (show 0xbffff < 0xc0000 by decide) true).bind ?_)
    rintro installed q ⟨hfs, htrue, hfalse⟩
    cases installed with
    | true =>
      obtain ⟨role', hgo', -⟩ := htrue rfl
      exact .pure ⟨role', hgo.trans hgo', hfs⟩
    | false =>
      obtain ⟨hgo', hk'⟩ := hfalse rfl
      refine (hgo'.loading.free hk').bind fun _ t ⟨ht, hfs'⟩ => .pure ⟨role, (hgo.trans hgo').trans ht, hfs'.trans hfs⟩

theorem loadFile_returns (h : Loading p dirs role) (hI : FileFrame file I) (hfile : ∀ {s}, I s → ∃ pos, OpenOn s file c pos)
    (hs : I p.fs) : Prog.Returns (loadFile file) p fun _ t => ∃ role', Goes dirs p [] t role' [] ∧ I t.fs := by
  obtain ⟨pos, hopen⟩ := hfile hs
  refine (onFs_returns (hopen.read 52 hI hs)).bind ?_
  rintro bytes _ ⟨fs, ⟨hIfs, -⟩, rfl⟩
  have hgo : Goes dirs p [] { p with fs } role [] := h.withFs fs
  dsimp only
  split_ifs with hheader
  · refine (loadHeaders_returns hI hfile _ _ _ role hgo.loading hIfs).bind ?_
    rintro loaded q ⟨role', hq, hIq⟩
    cases loaded with
    | false => exact .pure ⟨role', hgo.trans hq, hIq⟩
    | true =>
      refine (setupStack_returns hq.loading).bind ?_
      rintro esp t ⟨role'', ht, hfs⟩
      exact .pure ⟨role'', (hgo.trans hq).trans ht, hfs ▸ hIq⟩
  · exact .pure ⟨role, hgo, hIfs⟩

end

/-! ## What there is after `load` -/

/-- The process has no page directory, or one that owns the pages that were taken since `p`. -/
structure Took (p t : Proc) : Prop where
  pages : t.pagedir = 0 ∧ t.pg.used = p.pg.used ∨ ∃ dirs role, Loading t dirs role ∧ Paging.Owns t.pg t.pagedir [] p.pg.used
  balanced : Paging.Balanced p.pg t.pg

/-- The executable, if there is one, is open. -/
def ExecutableOpen (s0 s : Fs) (nodes : Nodes) : Option ℕ → Prop
  | none => Closed s0 s nodes
  | some file => ∃ nd, OpenedFile s0 s nodes file nd

section
variable {p q t : Proc} {dirs : List ℕ} {role role' : ℕ → Option Paging.Role} {nodes : Nodes} {file : ℕ} {nd : Node}

theorem Took.of_goes (hq : Took p q) (howns : Paging.Owns q.pg q.pagedir [] p.pg.used)
    (h : Goes dirs q [] t role' []) : Took p t :=
  ⟨.inr ⟨dirs, role', h.loading, h.owns _ howns⟩, h.balanced _ hq.balanced⟩

theorem Took.withFs (h : Took p t) (fs : Fs) : Took p { t with fs } :=
  ⟨h.pages.imp_right fun ⟨dirs, role, hload, howns⟩ => ⟨dirs, role, ⟨hload.ok, hload.mem, hload.ram⟩, howns⟩, h.balanced⟩

/-- **`load`** leaves the executable open if it succeeds. -/
theorem load_returns (hfs : Sound p.fs nodes []) (hpg : Paging.Ok ⟨p.pg, dirs⟩ role) (hram : InRam p.pg) (line : Name) :
    Prog.Returns (load line) p fun r t => Took p t ∧ t.executableF = p.executableF ∧
      ExecutableOpen p.fs t.fs nodes (r.map fun r => r.2.2) := by
  rcases hpg.create_run with hnone | ⟨st, pd, role', hsome, hok, hsame, -, -, howns⟩
  · refine .bind_run (onPg_run hnone) (.bind_run (run_modify _ _) (.pure ?_))
    exact ⟨⟨.inl ⟨rfl, rfl⟩, (Paging.Balanced.refl p.pg).congr rfl rfl rfl⟩, rfl, hfs, fun _ => rfl, fun _ => rfl⟩
  · refine .bind_run (onPg_run hsome) (.bind_run (run_modify _ _) ?_)
    have hbal : Paging.Balanced p.pg st := Paging.balanced_pagedirCreate _ _ _ (Paging.Balanced.refl _) hsome
    have hload : ∀ fs, Loading { p with pg := st, fs, pagedir := pd } (pd :: dirs) role' := fun fs =>
      ⟨hok, mem_cons_self, hram.congr hsame⟩
    have htook : ∀ fs, Took p { p with pg := st, fs, pagedir := pd } := fun fs => ⟨.inr ⟨_, _, hload fs, howns⟩, hbal⟩
    refine (onFs_returns (p := { p with pg := st, pagedir := pd }) (hfs.open (Args.programName line))).bind ?_
    rintro (_ | file) _ ⟨fs, hopen, rfl⟩
    · exact .pure ⟨htook fs, rfl, hopen⟩
    · obtain ⟨nd, hopen⟩ := hopen
      refine (onFs_returns hopen.denyWrite).bind ?_
      rintro _ _ ⟨fs', hopen', rfl⟩
      refine (loadFile_returns (hload fs') OpenedFile.frame OpenedFile.openOn hopen').bind ?_
      rintro loaded t ⟨role'', hgo, hopen''⟩
      have ht := (htook fs').of_goes howns hgo
      cases loaded with
      | some r =>
        refine (onFs_returns hopen''.denyWrite).bind ?_
        rintro _ _ ⟨fs'', hdone, rfl⟩
        exact .pure ⟨ht.withFs fs'', hgo.executableF, nd, hdone⟩
      | none =>
        refine (onFs_returns hopen''.close).bind ?_
        rintro _ _ ⟨fs'', hdone, rfl⟩
        exact .pure ⟨ht.withFs fs'', hgo.executableF, hdone⟩

theorem Took.destroy (h : Took p t) :
    Prog.Returns (if t.pagedir ≠ 0 then do
      modify fun p => { p with pagedir := 0 }
      onPg (Paging.pagedirDestroy t.pagedir)
    else pure () : LoadM Unit) t fun _ u => u.fs = t.fs ∧ u.pg.used.Perm p.pg.used ∧ Paging.Balanced p.pg u.pg := by
  rcases h.pages with ⟨hzero, hused⟩ | ⟨dirs, role, hload, howns⟩
  · rw [if_neg (not_not.2 hzero)]
    exact .pure ⟨rfl, .of_eq hused, h.balanced⟩
  · have hne : t.pagedir ≠ 0 := by
      have := ((hload.ok.page (hload.ok.dir hload.mem)).2).le
      unfold physBase at this
      omega
    rw [if_pos hne]
    have hdestroy := (hload.ok.destroy_returns hload.mem howns).and_preserves (Paging.balanced_pagedirDestroy _) h.balanced
    refine (onPg_returns (p := { t with pagedir := 0 }) hdestroy).mono ?_
    rintro _ _ ⟨pg, ⟨hused, hbal⟩, rfl⟩
    exact ⟨rfl, hused, hbal⟩

theorem closeExecutable_returns {s0 : Fs} {e : Option ℕ} (h : ExecutableOpen s0 t.fs nodes e) :
    Prog.Returns (closeExecutable e) t fun _ u => ∃ fs, Closed s0 fs nodes ∧ u = { t with fs } := by
  cases e with
  | none => exact .pure ⟨t.fs, h, rfl⟩
  | some file =>
    obtain ⟨nd, hopen⟩ := h
    refine (onFs_returns hopen.allowWrite).bind ?_
    rintro _ _ ⟨fs, ⟨hopen', -⟩, rfl⟩
    refine (onFs_returns hopen'.close).mono ?_
    rintro _ _ ⟨fs', hclosed, rfl⟩
    exact ⟨fs', hclosed, rfl⟩

/-- **`process_exit`** gives back the pages and the executable. -/
theorem processExit_returns {s0 : Fs} (htook : Took p t) (hfile : ExecutableOpen s0 t.fs nodes t.executableF) :
    Prog.Returns processExit t fun _ u => Closed s0 u.fs nodes ∧ u.pg.used.Perm p.pg.used ∧ Paging.Balanced p.pg u.pg := by
  refine .bind_run (run_get t) ((closeExecutable_returns hfile).bind ?_)
  rintro _ _ ⟨fs, hclosed, rfl⟩
  refine (htook.withFs fs).destroy.mono ?_
  rintro _ u ⟨hfs, hused, hbal⟩
  exact ⟨hfs ▸ hclosed, hused, hbal⟩

end

/-- A process that is started, and ends. -/
def startAndExit (line : Name) : LoadM Unit := do
  let r ← load line
  setExecutable r
  processExit

/-- **Whatever `load` does**, after `process_exit` each page that was taken is freed once, no other page is, and the counts
of the inodes are as they were. -/
theorem load_exit_restores {p : Proc} {nodes : Nodes} {dirs : List ℕ} {role : ℕ → Option Paging.Role} (hfs : Sound p.fs nodes [])
    (hpg : Paging.Ok ⟨p.pg, dirs⟩ role) (hram : InRam p.pg) (hexec : p.executableF = none) (line : Name) :
    Prog.Returns (startAndExit line) p fun _ t => t.pg.used.Perm p.pg.used ∧
      (∃ new gone, t.pg.taken = new ++ p.pg.taken ∧ t.pg.freed = gone ++ p.pg.freed ∧ gone.Perm new) ∧
      t.fs.counts = p.fs.counts := by
  have hend : ∀ {q : Proc}, Prog.Returns processExit q (fun _ u => Closed p.fs u.fs nodes ∧ u.pg.used.Perm p.pg.used ∧
      Paging.Balanced p.pg u.pg) → Prog.Returns processExit q fun _ t => t.pg.used.Perm p.pg.used ∧
      (∃ new gone, t.pg.taken = new ++ p.pg.taken ∧ t.pg.freed = gone ++ p.pg.freed ∧ gone.Perm new) ∧
      t.fs.counts = p.fs.counts := by
    intro q hq
    refine hq.mono ?_
    rintro _ u ⟨hclosed, hused, hbal⟩
    exact ⟨hused, hbal.perm hused, hclosed.counts hfs⟩
  refine (load_returns hfs hpg hram line).bind ?_
  rintro (_ | ⟨eip, esp, file⟩) t ⟨htook, hexec', hfile⟩
  · refine .bind_run rfl (hend (processExit_returns htook ?_))
    rwa [hexec', hexec]
  · refine .bind_run (run_modify _ _) (hend (processExit_returns ⟨?_, htook.balanced⟩ hfile))
    exact htook.pages.imp_right fun ⟨dirs, role, hload, howns⟩ => ⟨dirs, role, ⟨hload.ok, hload.mem, hload.ram⟩, howns⟩

/-- The file is no executable. -/
theorem load_exit_restores_of_data : ∃ t, (startAndExit Files.nameA).run { oneSegment with fs := Files.twoFiles } = .ok ((), t) ∧
    t.pg.used.Perm [physBase + 8192, physBase + 4096] ∧ t.fs.counts = Files.twoFiles.counts := by
  have hrestores : ∀ {fs nodes}, Sound fs nodes [] → ∃ t, (startAndExit Files.nameA).run { oneSegment with fs } = .ok ((), t) ∧
      t.pg.used.Perm [physBase + 8192, physBase + 4096] ∧ t.fs.counts = fs.counts := by
    intro fs nodes hfs
    obtain ⟨r, t, hrun, hused, -, hcounts⟩ := load_exit_restores (p := { oneSegment with fs }) hfs oneSegment_loading.ok
      oneSegment_loading.ram rfl Files.nameA
    exact ⟨t, hrun, hused, hcounts⟩
  obtain ⟨a, nodes, hsim⟩ := Files.twoFiles_formatted.sim
  exact hrestores hsim.inv.sound

end Pintos.Process
