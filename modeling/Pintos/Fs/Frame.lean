/-
  What the functions of the file system leave unchanged.

  Reads and writes of an inode take memory and change the device, and nothing else; a view of the
  state that does not see these is the same afterwards.
-/
import Pintos.Fs.Inode

namespace Pintos

open Lib Prog

variable {s t : Fs} {i file : ℕ} {n : Inode} {f : File}

theorem ok_of_getInode (h : (getInode i).run s = .ok (n, t)) : s.inodes.get i = some n ∧ t = s := by
  unfold getInode at h
  rw [run_bind_get] at h
  cases hn : s.inodes.get i with
  | none => rw [hn] at h; cases h
  | some m =>
    rw [hn] at h
    cases h
    exact ⟨rfl, rfl⟩

theorem ok_of_getFile (h : (getFile file).run s = .ok (f, t)) : s.files.get file = some f ∧ t = s := by
  unfold getFile at h
  rw [run_bind_get] at h
  cases hf : s.files.get file with
  | none => rw [hf] at h; cases h
  | some g =>
    rw [hf] at h
    cases h
    exact ⟨rfl, rfl⟩

theorem length_blockRead {sector : ℕ} {l : List UInt8} (h : (blockRead sector).run s = .ok (l, t)) : l.length = 512 := by
  unfold blockRead at h
  rw [run_bind_get] at h
  split_ifs at h
  · obtain ⟨rfl, -⟩ := ok_inj h
    exact length_slice
  · cases h

/-! ## What loops keep -/

section
variable {γ : Type} {v : Fs → γ} (hmem : ∀ s m, v { s with memory := m } = v s)
include hmem

theorem keeps_malloc : Prog.Keeps v malloc := by
  intro s a t h
  obtain ⟨-, rfl⟩ := ok_inj h
  exact hmem s _

theorem keeps_bounceBuffer (bounce : Bool) : Prog.Keeps v (bounceBuffer bounce) :=
  .ite (keeps_pure _) (keeps_malloc hmem)

omit hmem in
theorem keeps_onFreeMap {α : Type} (f : Bitmap → Except Panic α) : Prog.Keeps v (onFreeMap f) := by
  intro s a t h
  unfold onFreeMap at h
  rw [run_bind_get] at h
  cases hf : f s.freeMap with
  | error e => rw [hf] at h; cases h
  | ok b =>
    rw [hf] at h
    rw [← (ok_inj h).2]

omit hmem in
theorem keeps_blockRead (sector : ℕ) : Prog.Keeps v (blockRead sector) :=
  keeps_get.bind fun _ => .ite (keeps_pure _) (keeps_throw _)

theorem keeps_inodeReadAt (i : ℕ) (size : ℤ) (offset : ℕ) : Prog.Keeps v (inodeReadAt i size offset) := by
  have hloop : ∀ (n : Inode) (fuel : ℕ) (bounce : Bool) (size : ℤ) (offset : ℕ) (buffer : List UInt8),
      Prog.Keeps v (readLoop n fuel bounce size offset buffer) := by
    intro n fuel
    induction fuel with
    | zero => exact fun _ _ _ _ => .ite (keeps_throw _) (keeps_pure _)
    | succ fuel ih =>
      intro bounce size offset buffer
      refine .ite (.ite (keeps_pure _) (.ite ?_ ?_)) (keeps_pure _)
      · exact (keeps_blockRead _).bind fun _ => ih _ _ _ _
      · refine (keeps_bounceBuffer hmem bounce).bind fun _ => .ite ?_ (keeps_pure _)
        exact (keeps_blockRead _).bind fun _ => ih _ _ _ _
  refine Prog.Keeps.bind ?_ fun n => hloop n _ _ _ _ _
  intro s n t h
  rw [(ok_of_getInode h).2]

variable (hdisk : ∀ s d, v (Fs.withDisk s d) = v s)
include hdisk

omit hmem in
theorem keeps_blockWrite (sector : ℕ) (buffer : List UInt8) : Prog.Keeps v (blockWrite sector buffer) := by
  intro s a t h
  unfold blockWrite at h
  rw [run_bind_get] at h
  split_ifs at h with hlt
  · rw [← (ok_inj h).2, hdisk]
  · cases h

theorem keeps_inodeWriteAt (i : ℕ) (buffer : ℕ → UInt8) (size : ℤ) (offset : ℕ) :
    Prog.Keeps v (inodeWriteAt i buffer size offset) := by
  have hloop : ∀ (n : Inode) (fuel : ℕ) (bounce : Bool) (size : ℤ) (offset written : ℕ),
      Prog.Keeps v (writeLoop n buffer fuel bounce size offset written) := by
    intro n fuel
    induction fuel with
    | zero => exact fun _ _ _ _ => .ite (keeps_throw _) (keeps_pure _)
    | succ fuel ih =>
      intro bounce size offset written
      refine .ite (.ite (keeps_pure _) (.ite ?_ ?_)) (keeps_pure _)
      · exact (keeps_blockWrite hdisk _ _).bind fun _ => ih _ _ _ _
      · refine (keeps_bounceBuffer hmem bounce).bind fun _ => .ite ?_ (keeps_pure _)
        exact .ite ((keeps_blockRead _).bind fun _ => (keeps_blockWrite hdisk _ _).bind fun _ => ih _ _ _ _)
          ((keeps_pure _).bind fun _ => (keeps_blockWrite hdisk _ _).bind fun _ => ih _ _ _ _)
  refine Prog.Keeps.bind ?_ fun n => .ite (keeps_pure _) (hloop n _ _ _ _ _)
  intro s n t h
  rw [(ok_of_getInode h).2]

theorem keeps_fileWriteAt (file : ℕ) (buffer : ℕ → UInt8) (size : ℤ) (offset : ℕ) :
    Prog.Keeps v (fileWriteAt file buffer size offset) := by
  refine Prog.Keeps.bind ?_ fun f => keeps_inodeWriteAt hmem hdisk _ _ _ _
  intro s f t h
  rw [(ok_of_getFile h).2]

theorem keeps_bitmapWrite (file : ℕ) : Prog.Keeps v (bitmapWrite file) :=
  keeps_get.bind fun _ => (keeps_fileWriteAt hmem hdisk _ _ _ _).bind fun _ => keeps_pure _

theorem keeps_freeMapRelease (hmap : ∀ s b, v (Fs.withFreeMap s b) = v s) (sector cnt : ℕ) :
    Prog.Keeps v (freeMapRelease sector cnt) := by
  refine (keeps_onFreeMap _).bind fun all => .ite ?_ (keeps_throw _)
  refine (keeps_onFreeMap _).bind fun b => (keeps_modify fun s => hmap s b).bind fun _ => keeps_get.bind fun s => ?_
  cases s.freeMapFile with
  | none => exact keeps_throw _
  | some file => exact (keeps_bitmapWrite hmem hdisk file).bind fun _ => keeps_pure _

end

end Pintos
