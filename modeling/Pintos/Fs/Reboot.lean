/-
  Starting the kernel again.

  Between two calls the disk holds all names and files, also while files are open, so that `filesys_init`
  without formatting gives the store back, without its handles.
-/
import Pintos.Fs.Format

namespace Pintos

open Lib Prog List

/-- The handles are gone. -/
def Store.restart (a : Store) : Store := { a with handles := fun _ => none }

/-- A new start on the disk completes; `junk` is what the memory for the free map held before. -/
def Fs.Restart (s : Fs) (junk : ℕ → Bool) (t : Fs) : Prop :=
  (filesysInit false junk).run (.boot s.disk s.size fun _ => true) = .ok ((), t)

/-- A call that completes, or a new start. -/
def Fs.Session (s : Fs) : Option (Op × Result) → Fs → Prop
  | some l, t => s.Step l t
  | none, t => ∃ junk, s.Restart junk t

def Store.Session (a : Store) : Option (Op × Result) → Store → Prop
  | some l, b => a.Step l b
  | none, b => b = a.restart

variable {s : Fs} {a : Store} {disk : ℕ → UInt8} {size : ℕ}

/-- **A new start** gives the store without its handles. -/
theorem Sim.restart (h : Sim s a) (junk : ℕ → Bool) : ∃ t, s.Restart junk t ∧ Sim t a.restart := by
  obtain ⟨nodes, h⟩ := h
  obtain ⟨map, hmap, -⟩ := h.inv.mapNode
  obtain ⟨t, file, hopen, hinv, hfile, hothers⟩ := freeMapOpen_run (s := .blank s.disk s.size junk) rfl
    ((Nat.zero_le 0).trans_lt (h.inv.layout.inode_lt hmap)) h.inv.size_le rfl h.inv.bitCnt_eq h.inv.stored h.inv.layout
    (openInv_empty rfl (fun _ => rfl) fun _ => rfl) h.inv.mapNode h.inv.root fun _ => rfl
  refine ⟨t, ?_, sim_of_unopened hinv hfile hothers h.names h.bytes rfl⟩
  unfold Fs.Restart filesysInit
  rw [run_bind_modify, run_bind_ok (freeMapInit_run _ junk)]
  · exact hopen
  · rfl

theorem session_simulates : Simulates Fs.Session Store.Session Sim := by
  rintro s a (_ | l) t hsim hstep
  · obtain ⟨junk, hrun⟩ := hstep
    obtain ⟨t', hrun', ht⟩ := hsim.restart junk
    obtain ⟨-, rfl⟩ := ok_inj (hrun'.symm.trans hrun)
    exact ⟨_, rfl, ht⟩
  · exact sim_simulates hsim hstep

/-- **Files survive.**  From a formatted device, every run of calls, between which the kernel may be started again at any
    time, is a run of the store that only loses its handles then; every new start succeeds, whatever the memory held,
    and every call completes. -/
theorem files_survive {junk : ℕ → Bool} {s0 : Fs} (hle : size ≤ 2 ^ 31)
    (hformat : (filesysInit true junk).run (.boot disk size fun _ => true) = .ok ((), s0)) :
    ∀ calls s, Runs Fs.Session s0 calls s → (∃ a, Runs Store.Session .empty calls a) ∧
      (∀ junk, ∃ t, s.Restart junk t) ∧ ∀ op : Op, op.Enabled s → op.SizeOk → ∃ r t, s.Session (some (op, r)) t := by
  intro calls s hruns
  obtain ⟨a, ha, hsim⟩ := hruns.simulate session_simulates (sim_of_filesysInit hle hformat)
  refine ⟨⟨a, ha⟩, fun junk => ?_, fun op he hsize => ?_⟩
  · obtain ⟨t, hrun, -⟩ := hsim.restart junk
    exact ⟨t, hrun⟩
  · obtain ⟨r, t, -, hcall, -⟩ := hsim.call op he hsize
    exact ⟨r, t, he, hcall⟩

/-- A new start with given memory, or a call that is to have a result. -/
def Fs.expectSession (junk : ℕ → Bool) (s : Fs) : Option (Op × Result) → Option Fs
  | some l => s.expect l
  | none => ((filesysInit false junk).run (.boot s.disk s.size fun _ => true)).toOption.map Prod.snd

theorem Fs.session_of_expect {junk : ℕ → Bool} {s t : Fs} : ∀ {l}, s.expectSession junk l = some t → s.Session l t
  | some _, h => step_of_expect h
  | none, h => by
    unfold expectSession at h
    cases hrun : (filesysInit false junk).run (.boot s.disk s.size fun _ => true) with
    | error e =>
      rw [hrun] at h
      cases h
    | ok r =>
      rw [hrun] at h
      cases h
      exact ⟨junk, hrun⟩

/-- What a file was given before a new start is read after it. -/
def readAfterRestart : List (Option (Op × Result)) :=
  readBack.map some ++ [none, some (.open_ nameE, .file (some 1)), some (.read 1 3, .bytes [7, 8, 9])]

theorem files_survive_start :
    ∃ s0 t a, (filesysInit true fun _ => false).run (.boot (fun _ => 0) 16 fun _ => true) = .ok ((), s0) ∧
      Runs Fs.Session s0 readAfterRestart t ∧ Runs Store.Session .empty readAfterRestart a ∧
      ∀ junk, ∃ u, t.Restart junk u := by
  obtain ⟨_, s0, hformat, hrun⟩ : Returns (filesysInit true fun _ => false) (.boot (fun _ => 0) 16 fun _ => true)
      fun _ s0 => (readAfterRestart.foldlM (Fs.expectSession fun _ => true) s0).isSome = true :=
    .of_eval (by decide +kernel)
  obtain ⟨t, ht⟩ := Option.isSome_iff_exists.1 hrun
  have hruns := Runs.of_eval Fs.session_of_expect ht
  obtain ⟨⟨a, ha⟩, hrestart, -⟩ := files_survive (by decide) hformat _ t hruns
  exact ⟨s0, t, a, hformat, hruns, ha, hrestart⟩

end Pintos
