/-
  `write`, with the memory of the process and the console.

  `write` does nothing if the string at the buffer is empty, and writes to the console in pieces of 128
  bytes.
-/
import Pintos.Files.Table
import Pintos.Lib.Avoids

namespace Pintos.Files

open Lib Prog List

/-- The bytes at the addresses that are mapped. -/
abbrev ByteMem := ℕ → Option UInt8

/-- The system, and what was sent to the console. -/
structure Term where
  sys : Sys
  out : List UInt8

abbrev TermM := Prog Term Fault

def Term.withSys (t : Term) (sys : Sys) : Term := { t with sys }

/-- `putchar_have_lock`. -/
def Term.send (t : Term) (l : List UInt8) : Term := { t with out := t.out ++ l }

def onSys {α : Type} (x : SysM α) : TermM α := zoom Term.sys Term.withSys id x

def loadByte (mem : ByteMem) (p : ℕ) : TermM UInt8 :=
  match mem p with
  | some b => pure b
  | none => throw .user

/-- The loop of `strlen`, with `n` addresses left. -/
def strlenLoop (mem : ByteMem) : ℕ → ℕ → TermM ℕ
  | 0, _ => throw .user
  | n + 1, p => do
    let b ← loadByte mem p
    if b ≠ 0 then strlenLoop mem n (p + 1) else pure p

def strlen (mem : ByteMem) (string : ℕ) : TermM ℕ := do
  let p ← strlenLoop mem (2 ^ 32 - string) string
  pure (p - string)

def putbuf (mem : ByteMem) : ℕ → ℕ → TermM Unit
  | _, 0 => pure ()
  | buffer, n + 1 => do
    let c ← loadByte mem buffer
    modify fun t => t.send [c]
    putbuf mem (buffer + 1) n

/-- `write` to the screen.  The pointer `p` is set to the buffer in every turn. -/
def putChunks (mem : ByteMem) (buffer length : ℕ) : TermM ℕ :=
  if 128 < length then do
    putbuf mem buffer 128
    putChunks mem buffer (length - 128)
  else do
    putbuf mem buffer length
    pure length
termination_by length

/-- The buffer, as the file system reads it. -/
def ByteMem.at (mem : ByteMem) (buffer : ℕ) : ℕ → UInt8 := fun i => (mem (buffer + i)).getD 0

/-- `write`. -/
def writeCall (mem : ByteMem) (fd buffer length : ℕ) : TermM ℕ :=
  if buffer ≠ 0 then do
    let len ← strlen mem buffer
    if 0 < len then
      if fd = 1 then putChunks mem buffer length
      else do
        let f ← onSys (getFileP fd)
        match f with
        | some f => onSys (onFs (fileWrite f (mem.at buffer) (Int.bmod length (2 ^ 32))))
        | none => pure 0
    else pure 0
  else pure 0

variable {mem : ByteMem} {t u : Term} {buffer p n fd : ℕ}

/-! ## The string at the buffer -/

/-- There is a zero byte, and up to it all is mapped. -/
def Terminated (mem : ByteMem) (p : ℕ) : Prop := ∃ k, p + k < 2 ^ 32 ∧ mem (p + k) = some 0 ∧ ∀ j < k, (mem (p + j)).isSome

theorem loadByte_run {b : UInt8} (h : mem p = some b) (t : Term) : (loadByte mem p).run t = .ok (b, t) := by
  unfold loadByte
  rw [h]
  rfl

theorem loadByte_unmapped (h : mem p = none) (t : Term) : (loadByte mem p).run t = .error .user := by
  unfold loadByte
  rw [h]
  rfl

theorem strlenLoop_spec (mem : ByteMem) (t : Term) : ∀ n p,
    (∃ k, (strlenLoop mem n p).run t = .ok (p + k, t) ∧ k < n ∧ mem (p + k) = some 0 ∧ ∀ j < k, (mem (p + j)).isSome ∧ mem (p + j) ≠ some 0) ∨
    ((strlenLoop mem n p).run t = .error .user ∧ ∀ k < n, mem (p + k) = some 0 → ∃ j < k, mem (p + j) = none)
  | 0, p => .inr ⟨rfl, nofun⟩
  | n + 1, p => by
    rw [strlenLoop]
    cases hb : mem p with
    | none =>
      refine .inr ⟨?_, fun k _ hk => ?_⟩
      · rw [StateT.run_bind, loadByte_unmapped hb]
        rfl
      · refine ⟨0, Nat.pos_of_ne_zero ?_, hb⟩
        rintro rfl
        rw [Nat.add_zero, hb] at hk
        cases hk
    | some b =>
      rw [run_bind_ok (loadByte_run hb t)]
      by_cases h0 : b = 0
      · rw [if_neg (not_not.2 h0)]
        exact .inl ⟨0, rfl, Nat.succ_pos n, h0 ▸ hb, nofun⟩
      · rw [if_pos h0]
        rcases strlenLoop_spec mem t n (p + 1) with ⟨k, hrun, hk, hzero, hall⟩ | ⟨hrun, hno⟩
        · refine .inl ⟨k + 1, ?_, by omega, ?_, fun j hj => ?_⟩
          · rw [hrun, Nat.add_right_comm, Nat.add_assoc]
          · rw [← hzero, Nat.add_right_comm, Nat.add_assoc]
          · cases j with
            | zero =>
              rw [Nat.add_zero, hb]
              exact ⟨rfl, fun h => h0 (Option.some.inj h)⟩
            | succ j =>
              rw [show p + (j + 1) = p + 1 + j by omega]
              exact hall j (by omega)
        · refine .inr ⟨hrun, fun k hk hzero => ?_⟩
          cases k with
          | zero =>
            rw [Nat.add_zero, hb] at hzero
            exact absurd (Option.some.inj hzero) h0
          | succ k =>
            rw [show p + (k + 1) = p + 1 + k by omega] at hzero
            obtain ⟨j, hj, hnone⟩ := hno k (by omega) hzero
            exact ⟨j + 1, by omega, by rw [← hnone]; congr 1; omega⟩

theorem strlen_run (h : Terminated mem p) (t : Term) :
    ∃ k, (strlen mem p).run t = .ok (k, t) ∧ (0 < k ↔ mem p ≠ some 0) := by
  obtain ⟨m, hm, hzero, hall⟩ := h
  rcases strlenLoop_spec mem t (2 ^ 32 - p) p with ⟨k, hrun, -, hk, hbefore⟩ | ⟨-, hno⟩
  · refine ⟨k, ?_, fun hpos => (hbefore 0 hpos).2, fun hne => Nat.pos_of_ne_zero ?_⟩
    · unfold strlen
      rw [run_bind_ok hrun, Nat.add_sub_cancel_left]
      rfl
    · rintro rfl
      exact hne hk
  · obtain ⟨j, hj, hnone⟩ := hno m (by omega) hzero
    have hsome := hall j hj
    rw [hnone] at hsome
    cases hsome

theorem strlen_fault (h : ¬ Terminated mem p) (t : Term) : (strlen mem p).run t = .error .user := by
  rcases strlenLoop_spec mem t (2 ^ 32 - p) p with ⟨k, -, hk, hzero, hall⟩ | ⟨hrun, -⟩
  · exact absurd ⟨k, by omega, hzero, fun j hj => (hall j hj).1⟩ h
  · unfold strlen
    rw [StateT.run_bind, hrun]
    rfl

/-! ## The console -/

/-- The bytes of a buffer. -/
def ByteMem.bytes (mem : ByteMem) (buffer n : ℕ) : List UInt8 := slice (mem.at buffer) 0 n

theorem ByteMem.bytes_succ {b : UInt8} (h : mem buffer = some b) (n : ℕ) :
    mem.bytes buffer (n + 1) = b :: mem.bytes (buffer + 1) n := by
  simp only [ByteMem.bytes, ByteMem.at, slice, range_succ_eq_map, map_cons, map_map, Nat.add_zero, h,
    Option.getD_some]
  congr 1
  refine map_congr_left fun i _ => ?_
  simp only [Function.comp_apply, Nat.zero_add, Nat.succ_eq_add_one]
  rw [Nat.add_right_comm, Nat.add_assoc]

theorem putbuf_run : ∀ {n buffer : ℕ} {t : Term}, (∀ i < n, (mem (buffer + i)).isSome) →
    (putbuf mem buffer n).run t = .ok ((), t.send (mem.bytes buffer n))
  | 0, buffer, t, _ => by
    change Except.ok ((), t) = Except.ok ((), { t with out := t.out ++ [] })
    rw [append_nil]
  | n + 1, buffer, t, h => by
    obtain ⟨b, hb⟩ : ∃ b, mem buffer = some b := Option.isSome_iff_exists.1 (h 0 (Nat.succ_pos n))
    have hrest : ∀ i < n, (mem (buffer + 1 + i)).isSome := by
      intro i hi
      rw [Nat.add_right_comm, Nat.add_assoc]
      exact h (i + 1) (by omega)
    rw [putbuf, run_bind_ok (loadByte_run hb t), run_bind_modify, putbuf_run hrest,
      ByteMem.bytes_succ hb]
    change Except.ok ((), Term.mk t.sys (t.out ++ [b] ++ _)) = Except.ok ((), Term.mk t.sys (t.out ++ b :: _))
    rw [append_assoc]
    rfl

theorem putChunks_run {length : ℕ} (h : ∀ i < min length 128, (mem (buffer + i)).isSome) (t : Term) :
    ∃ l, (putChunks mem buffer length).run t = .ok (putLoop length, t.send l) := by
  induction length using Nat.strong_induction_on generalizing t with
  | _ length ih =>
    unfold putChunks putLoop
    split_ifs with hlong
    · rw [run_bind_ok (putbuf_run fun i hi => h i (by omega))]
      obtain ⟨l, hrun⟩ := ih (length - 128) (by omega) (fun i hi => h i (by omega)) (t.send (mem.bytes buffer 128))
      refine ⟨mem.bytes buffer 128 ++ l, ?_⟩
      rw [hrun]
      change Except.ok (_, Term.mk t.sys (t.out ++ _ ++ l)) = Except.ok (_, Term.mk t.sys (t.out ++ (_ ++ l)))
      rw [append_assoc]
    · rw [run_bind_ok (putbuf_run fun i hi => h i (by omega))]
      exact ⟨_, rfl⟩

theorem putLoop_le (length : ℕ) : putLoop length ≤ 128 := by
  induction length using Nat.strong_induction_on with
  | _ length ih =>
    unfold putLoop
    split_ifs with hlong
    · exact ih _ (by omega)
    · omega

/-- `write (1, buffer, n)` sends the buffer and returns its length. -/
def ConsoleRight (mem : ByteMem) (buffer n : ℕ) (t : Term) : Prop :=
  (writeCall mem 1 buffer n).run t = .ok (n, t.send (mem.bytes buffer n))

theorem writeCall_fault (hbuf : buffer ≠ 0) (h : ¬ Terminated mem buffer) (fd n : ℕ) (t : Term) :
    (writeCall mem fd buffer n).run t = .error .user := by
  unfold writeCall
  rw [if_pos hbuf, StateT.run_bind, strlen_fault h]
  rfl

theorem writeCall_empty (hbuf : buffer ≠ 0) (h : Terminated mem buffer) (h0 : mem buffer = some 0) (fd n : ℕ) (t : Term) :
    (writeCall mem fd buffer n).run t = .ok (0, t) := by
  obtain ⟨k, hrun, hk⟩ := strlen_run h t
  unfold writeCall
  rw [if_pos hbuf, run_bind_ok hrun, if_neg fun hpos => hk.1 hpos h0]
  rfl

theorem writeCall_console (hbuf : buffer ≠ 0) (h : Terminated mem buffer) (h0 : mem buffer ≠ some 0) (n : ℕ) (t : Term) :
    (writeCall mem 1 buffer n).run t = (putChunks mem buffer n).run t := by
  obtain ⟨k, hrun, hk⟩ := strlen_run h t
  unfold writeCall
  rw [if_pos hbuf, run_bind_ok hrun, if_pos (hk.2 h0), if_pos rfl]

theorem consoleRight_iff (hbuf : buffer ≠ 0) (hmapped : ∀ i < n, (mem (buffer + i)).isSome) (t : Term) :
    ConsoleRight mem buffer n t ↔ Terminated mem buffer ∧ (n = 0 ∨ mem buffer ≠ some 0 ∧ n ≤ 128) := by
  have hmin : ∀ i < min n 128, (mem (buffer + i)).isSome := fun i hi => hmapped i (by omega)
  unfold ConsoleRight
  by_cases hterm : Terminated mem buffer
  · by_cases h0 : mem buffer = some 0
    · rw [writeCall_empty hbuf hterm h0]
      constructor
      · intro heq
        exact ⟨hterm, .inl (ok_inj heq).1.symm⟩
      · rintro ⟨-, rfl | ⟨hne, -⟩⟩
        · change Except.ok (0, t) = Except.ok (0, { t with out := t.out ++ [] })
          rw [append_nil]
        · exact absurd h0 hne
    · rw [writeCall_console hbuf hterm h0]
      constructor
      · intro heq
        obtain ⟨l, hrun⟩ := putChunks_run hmin t
        have hlen : putLoop n = n := (ok_inj (hrun.symm.trans heq)).1
        exact ⟨hterm, .inr ⟨h0, hlen ▸ putLoop_le n⟩⟩
      · rintro ⟨-, hn⟩
        unfold putChunks
        rw [if_neg (by omega), run_bind_ok (putbuf_run hmapped)]
        rfl
  · rw [writeCall_fault hbuf hterm]
    exact ⟨nofun, fun h => absurd h.1 hterm⟩

/-! ## Files -/

theorem Terminated.first (h : Terminated mem buffer) : (mem buffer).isSome := by
  obtain ⟨k, -, hzero, hall⟩ := h
  cases k with
  | zero =>
    rw [show mem buffer = some 0 from hzero]
    rfl
  | succ k => exact hall 0 (Nat.succ_pos k)

theorem onSys_bind {α β : Type} (x : SysM α) (f : α → SysM β) (t : Term) :
    (onSys (x >>= f)).run t = (onSys x >>= fun a => onSys (f a)).run t := by
  refine zoom_bind ?_ ?_ x f t
  · exact fun _ _ => rfl
  · exact fun _ _ _ => rfl

theorem writeCall_file (hbuf : buffer ≠ 0) (h : Terminated mem buffer) (hfd : fd ≠ 1) (n : ℕ) (t : Term) :
    (writeCall mem fd buffer n).run t = (onSys (write fd buffer (mem.at buffer) n)).run t := by
  obtain ⟨b, hb⟩ := Option.isSome_iff_exists.1 h.first
  have hat : mem.at buffer 0 = b := by
    change (mem buffer).getD 0 = b
    rw [hb]
    rfl
  by_cases h0 : b = 0
  · rw [writeCall_empty hbuf h (h0 ▸ hb)]
    unfold write
    rw [if_neg fun hc => hc.2 (hat.trans h0)]
    rfl
  · obtain ⟨k, hrun, hk⟩ := strlen_run h t
    unfold writeCall write
    rw [if_pos hbuf, run_bind_ok hrun, if_pos (hk.2 fun hz => h0 (Option.some.inj (hb.symm.trans hz))), if_neg hfd,
      if_pos ⟨hbuf, fun hz => h0 (hat.symm.trans hz)⟩, if_neg hfd, onSys_bind]
    refine run_bind_congr fun f u _ => ?_
    cases f <;> rfl

/-- `write (fd, buffer, n)` stores and returns what `file_write` does; it may leave other memory. -/
def FileRight (mem : ByteMem) (fd f buffer n : ℕ) (t : Term) : Prop :=
  match (fileWrite f (mem.at buffer) (Int.bmod n (2 ^ 32))).run t.sys.fs with
  | .ok (r, fs) => ∃ fs', SameButMemory fs fs' ∧ (writeCall mem fd buffer n).run t = .ok (r, t.withSys (t.sys.withFs fs'))
  | .error p => (writeCall mem fd buffer n).run t = .error (.fs p)

/-- Writing `size` bytes stores nothing: there is nothing to write, writes are denied, the position is
    at the end, or there is no memory for a part of a sector. -/
def StoresNothing (s : Fs) (f : File) (i : Inode) (size : ℤ) : Prop :=
  size ≤ 0 ∨ i.denyWriteCnt ≠ 0 ∨ i.data.length ≤ f.pos ∨
    s.memory 0 = false ∧ ¬ (f.pos % 512 = 0 ∧ 512 ≤ size ∧ f.pos + 512 ≤ i.data.length)

section
variable {s s' : Fs} {i : Inode} {f : File} {file : ℕ} {size : ℤ} {bytes : ℕ → UInt8}

theorem le_of_writeLoop : ∀ (fuel : ℕ) (bounce : Bool) (size : ℤ) (offset written : ℕ) (s : Fs),
    Prog.Avoids (fun _ => False) (writeLoop i bytes fuel bounce size offset written) s fun r _ => written ≤ r
  | 0, _, _, _, _, _ => .ite (fun _ => .throw id) fun _ => .pure le_rfl
  | fuel + 1, bounce, size, offset, written, s => by
    have hrest : ∀ (bounce : Bool) (c : ℤ) (u : Fs), Prog.Avoids (fun _ => False)
        (writeLoop i bytes fuel bounce (size - c) (offset + c.toNat) (written + c.toNat)) u fun r _ => written ≤ r :=
      fun bounce c u => (le_of_writeLoop fuel bounce _ _ _ u).mono fun _ _ h => (Nat.le_add_right _ _).trans h
    refine .ite (fun _ => .ite (fun _ => .pure le_rfl) fun _ => .ite (fun _ => ?_) fun _ => ?_) fun _ => .pure le_rfl
    · exact (Prog.Avoids.any _ _).bind fun _ u _ => hrest _ _ u
    · refine (Prog.Avoids.any _ _).bind fun _ u _ => .ite (fun _ => ?_) fun _ => .pure le_rfl
      refine .ite (fun _ => ?_) fun _ => ?_ <;>
        exact (Prog.Avoids.any _ _).bind fun _ v _ => (Prog.Avoids.any _ _).bind fun _ w _ => hrest _ _ w

variable {offset : ℕ}

theorem chunkSize_whole_iff : (offset % 512 = 0 ∧ chunkSize i size offset = 512) ↔
    (offset % 512 = 0 ∧ 512 ≤ size ∧ offset + 512 ≤ i.data.length) := by
  unfold chunkSize
  dsimp only
  constructor
  · rintro ⟨h0, hc⟩
    split_ifs at hc <;> omega
  · rintro ⟨h0, h1, h2⟩
    split_ifs <;> omega

theorem writeLoop_nothing (h : size ≤ 0 ∨ i.data.length ≤ offset ∨
    s.memory 0 = false ∧ ¬ (offset % 512 = 0 ∧ 512 ≤ size ∧ offset + 512 ≤ i.data.length)) :
    ∃ s', (writeLoop i bytes size.toNat false size offset 0).run s = .ok (0, s') ∧ SameButMemory s s' := by
  cases hfuel : size.toNat with
  | zero =>
    unfold writeLoop
    rw [if_neg (by omega)]
    exact ⟨s, rfl, .refl s⟩
  | succ fuel =>
    unfold writeLoop
    rw [if_pos (by omega)]
    by_cases hend : i.data.length ≤ offset
    · rw [if_pos (chunkSize_nonpos hend)]
      exact ⟨s, rfl, .refl s⟩
    · obtain ⟨hmem, hpart⟩ := (h.resolve_left (by omega)).resolve_left hend
      have hpos : 0 < chunkSize i size offset := (chunkSize_spec (by omega) (Int.not_le.1 hend)).1
      rw [if_neg (Int.not_le.2 hpos), if_neg fun hwhole => hpart (chunkSize_whole_iff.1 hwhole)]
      have hbounce : (bounceBuffer false).run s = .ok (false, s.withMemory fun n => s.memory (n + 1)) :=
        (malloc_scarce s).trans (by rw [hmem])
      rw [run_bind_ok hbounce]
      exact ⟨_, rfl, _, rfl⟩

theorem writeLoop_something (hsize : 0 < size) (hlen : offset < i.data.length)
    (hmem : s.memory 0 = true ∨ offset % 512 = 0 ∧ 512 ≤ size ∧ offset + 512 ≤ i.data.length) :
    Prog.Avoids (fun _ => False) (writeLoop i bytes size.toNat false size offset 0) s fun r _ => 0 < r := by
  obtain ⟨fuel, hfuel⟩ : ∃ fuel, size.toNat = fuel + 1 := ⟨size.toNat - 1, by omega⟩
  obtain ⟨hpos, -⟩ := chunkSize_spec hsize hlen
  -- later turns count what the first one wrote
  have hrest : ∀ (bounce : Bool) (u : Fs), Prog.Avoids (fun _ => False)
      (writeLoop i bytes fuel bounce (size - chunkSize i size offset) (offset + (chunkSize i size offset).toNat)
        (0 + (chunkSize i size offset).toNat)) u fun r _ => 0 < r :=
    fun bounce u => (le_of_writeLoop fuel bounce _ _ _ u).mono fun r _ h => by omega
  rw [hfuel]
  refine .ite (fun _ => .ite (fun hneg => absurd hneg (Int.not_le.2 hpos)) fun _ => .ite (fun _ => ?_) fun hpart => ?_)
    fun hneg => absurd hsize hneg
  · exact (Prog.Avoids.any _ _).bind fun _ u _ => hrest _ u
  · have hm : s.memory 0 = true := hmem.resolve_right fun hwhole => hpart (chunkSize_whole_iff.2 hwhole)
    have hbounce : (bounceBuffer false).run s = .ok (true, s.withMemory fun n => s.memory (n + 1)) :=
      (malloc_scarce s).trans (by rw [hm])
    refine .bind_run hbounce (.ite (fun _ => ?_) fun hfalse => absurd rfl hfalse)
    refine .ite (fun _ => ?_) fun _ => ?_ <;>
      exact (Prog.Avoids.any _ _).bind fun _ v _ => (Prog.Avoids.any _ _).bind fun _ w _ => hrest _ w

/-- **Nothing is stored** exactly if 0 is returned. -/
theorem fileWrite_zero_iff (hf : s.files.get file = some f) (hn : s.inodes.get f.inode = some i) (bytes : ℕ → UInt8) (size : ℤ) :
    (∃ s', (fileWrite file bytes size).run s = .ok (0, s') ∧ SameButMemory s s') ↔ StoresNothing s f i size := by
  constructor
  · rintro ⟨s', hrun, -⟩
    by_contra hsome
    unfold StoresNothing at hsome
    push Not at hsome
    obtain ⟨hsize, hdeny, hlen, hmem⟩ := hsome
    have hmem' : s.memory 0 = true ∨ f.pos % 512 = 0 ∧ 512 ≤ size ∧ f.pos + 512 ≤ i.data.length := by
      by_cases h0 : s.memory 0 = true
      · exact .inl h0
      · exact .inr (hmem (Bool.eq_false_iff.2 h0))
    have hwrite : Prog.Avoids (fun _ => False) (inodeWriteAt f.inode bytes size f.pos) s fun r _ => 0 < r :=
      .bind_run (getInode_run hn) (.ite (fun h => absurd hdeny h) fun _ => writeLoop_something hsize hlen hmem')
    have hpos : Prog.Avoids (fun _ => False) (fileWrite file bytes size) s fun r _ => 0 < r :=
      .bind_run (getFile_run hf) (hwrite.bind fun r u hr => .bind_run (setFile_run _ _ _) (.pure hr))
    exact absurd (hpos.ok hrun) (lt_irrefl 0)
  · intro h
    have hzero : ∃ u, (inodeWriteAt f.inode bytes size f.pos).run s = .ok (0, u) ∧ SameButMemory s u := by
      unfold inodeWriteAt
      rw [run_bind_ok (getInode_run hn)]
      by_cases hdeny : i.denyWriteCnt ≠ 0
      · rw [if_pos hdeny]
        exact ⟨s, rfl, .refl s⟩
      · rw [if_neg hdeny]
        exact writeLoop_nothing (h.imp id fun h => h.resolve_left hdeny)
    obtain ⟨u, hrun, m, rfl⟩ := hzero
    refine ⟨s.withMemory m, ?_, m, rfl⟩
    unfold fileWrite
    rw [run_bind_ok (getFile_run hf), run_bind_ok hrun, run_bind_ok (setFile_run _ _ _)]
    have hself : s.files.set file { f with pos := f.pos + 0 } = s.files := Heap.set_self hf
    change Except.ok (0, (s.withMemory m).withFiles (s.files.set file _)) = _
    rw [hself]
    rfl

end

theorem write_run {file : ℕ} (hbuf : buffer ≠ 0) (hterm : Terminated mem buffer) (h0 : mem buffer ≠ some 0)
    (hfd : fd ≠ 1) (hget : (getFileP fd).run t.sys = .ok (some file, t.sys)) :
    (onSys (write fd buffer (mem.at buffer) n)).run t =
      match (fileWrite file (mem.at buffer) (Int.bmod n (2 ^ 32))).run t.sys.fs with
      | .ok (r, fs) => .ok (r, t.withSys (t.sys.withFs fs))
      | .error p => .error (.fs p) := by
  obtain ⟨b, hb⟩ := Option.isSome_iff_exists.1 hterm.first
  have hat : mem.at buffer 0 ≠ 0 := by
    change (mem buffer).getD 0 ≠ 0
    rw [hb]
    exact fun hz => h0 (hb.trans (congrArg some hz))
  have hwrite : (write fd buffer (mem.at buffer) n).run t.sys =
      (onFs (fileWrite file (mem.at buffer) (Int.bmod n (2 ^ 32)))).run t.sys := by
    unfold write
    rw [if_pos ⟨hbuf, hat⟩, if_neg hfd, run_bind_ok hget]
  unfold onSys zoom
  rw [run_bind_get, hwrite]
  unfold onFs
  rw [run_bind_get]
  cases (fileWrite file (mem.at buffer) (Int.bmod n (2 ^ 32))).run t.sys.fs <;> rfl

theorem fileRight_iff {file : ℕ} {f : File} {i : Inode} (hbuf : buffer ≠ 0) (hfd : fd ≠ 1)
    (hget : (getFileP fd).run t.sys = .ok (some file, t.sys)) (hf : t.sys.fs.files.get file = some f)
    (hi : t.sys.fs.inodes.get f.inode = some i) (n : ℕ) :
    FileRight mem fd file buffer n t ↔
      Terminated mem buffer ∧ (mem buffer ≠ some 0 ∨ StoresNothing t.sys.fs f i (Int.bmod n (2 ^ 32))) := by
  have hzero := fileWrite_zero_iff hf hi (mem.at buffer) (Int.bmod n (2 ^ 32))
  unfold FileRight
  by_cases hterm : Terminated mem buffer
  · by_cases h0 : mem buffer = some 0
    · rw [writeCall_empty hbuf hterm h0, ← hzero]
      constructor
      · intro h
        split at h
        · rename_i r fs hrun
          obtain ⟨fs', ⟨m, rfl⟩, heq⟩ := h
          obtain ⟨rfl, ht⟩ := ok_inj heq
          have hfs : t.sys.fs = fs.withMemory m := congrArg (fun u : Term => u.sys.fs) ht
          refine ⟨hterm, .inr ⟨fs, hrun, fs.memory, ?_⟩⟩
          rw [hfs]
          rfl
        · cases h
      · rintro ⟨-, hne | ⟨s', hrun, m, rfl⟩⟩
        · exact absurd h0 hne
        · rw [hrun]
          exact ⟨t.sys.fs, ⟨t.sys.fs.memory, rfl⟩, rfl⟩
    · refine ⟨fun _ => ⟨hterm, .inl h0⟩, fun _ => ?_⟩
      rw [writeCall_file hbuf hterm hfd, write_run hbuf hterm h0 hfd hget]
      cases (fileWrite file (mem.at buffer) (Int.bmod n (2 ^ 32))).run t.sys.fs with
      | ok r => exact ⟨r.2, .refl _, rfl⟩
      | error p => rfl
  · rw [writeCall_fault hbuf hterm]
    refine ⟨fun h => ?_, fun h => absurd h.1 hterm⟩
    split at h
    · obtain ⟨fs', -, heq⟩ := h
      cases heq
    · cases h

/-- **Which buffers are written.**  To the console those of at most 128 bytes that do not begin with a
    zero byte, and empty ones; to a file those that do not begin with a zero byte, and those that
    `file_write` does not store; and in both cases there is a zero byte in mapped memory. -/
theorem write_right_iff (hbuf : buffer ≠ 0) (hmapped : ∀ i < n, (mem (buffer + i)).isSome) (t : Term) :
    (ConsoleRight mem buffer n t ↔ Terminated mem buffer ∧ (n = 0 ∨ mem buffer ≠ some 0 ∧ n ≤ 128)) ∧
    ∀ {fd file f i}, fd ≠ 1 → (getFileP fd).run t.sys = .ok (some file, t.sys) →
      t.sys.fs.files.get file = some f → t.sys.fs.inodes.get f.inode = some i →
      (FileRight mem fd file buffer n t ↔
        Terminated mem buffer ∧ (mem buffer ≠ some 0 ∨ StoresNothing t.sys.fs f i (Int.bmod n (2 ^ 32)))) :=
  ⟨consoleRight_iff hbuf hmapped t, fun hfd hget hf hi => fileRight_iff hbuf hfd hget hf hi n⟩

/-- A string of `n` bytes at the address 8, which count up from 1. -/
def counting (n : ℕ) : ByteMem := fun p =>
  if 8 ≤ p ∧ p < 8 + n then some (UInt8.ofNat (p - 7)) else if p = 8 + n then some 0 else none

theorem counting_isSome {i : ℕ} (hi : i ≤ n) : (counting n (8 + i)).isSome := by
  unfold counting
  split_ifs
  · rfl
  · rfl
  · omega

theorem counting_terminated (hn : 8 + n < 2 ^ 32) : Terminated (counting n) 8 := by
  refine ⟨n, hn, ?_, fun j hj => counting_isSome hj.le⟩
  unfold counting
  rw [if_neg (by omega), if_pos rfl]

/-- Three bytes are written to the console and to a file. -/
theorem write_right_three : ∃ s, Reaches Sys.step anyStep (.boot twoFiles [7, 8]) s ∧
    ConsoleRight (counting 3) 8 3 ⟨s, []⟩ ∧ FileRight (counting 3) 2 2 8 3 ⟨s, []⟩ := by
  obtain ⟨s, hs, hp⟩ := reaches_of_run Sys.step anyStep (.boot twoFiles [7, 8]) [⟨7, namesAB, .open_ 1⟩]
    (fun s => decide (((getFileP 2).run s).toOption.map (·.1) = some (some 2) ∧
      ((s.fs.files.get 2).bind fun f => s.fs.inodes.get f.inode).isSome)) (by decide +kernel)
  obtain ⟨hfound, hopen⟩ := of_decide_eq_true hp
  obtain ⟨i, hi⟩ := Option.isSome_iff_exists.1 hopen
  obtain ⟨f, hf, hi⟩ := Option.bind_eq_some_iff.1 hi
  have hget : (getFileP 2).run s = .ok (some 2, s) := by
    cases hrun : (getFileP 2).run s with
    | error e =>
      rw [hrun] at hfound
      cases hfound
    | ok r =>
      have hsame : r.2 = s := keeps_getFileP (v := id) 2 s r.1 r.2 hrun
      rw [hrun] at hfound
      rw [← hsame, ← Option.some.inj hfound]
  have hterm : Terminated (counting 3) 8 := counting_terminated (by decide)
  have hmapped : ∀ i < 3, (counting 3 (8 + i)).isSome := fun _ hi => counting_isSome (Nat.le_of_lt hi)
  obtain ⟨hconsole, hfile⟩ := write_right_iff (by decide) hmapped ⟨s, []⟩
  exact ⟨s, hs, hconsole.2 ⟨hterm, .inr ⟨by decide, by decide⟩⟩,
    (hfile (show 2 ≠ 1 by decide) hget hf hi).2 ⟨hterm, .inl (by decide)⟩⟩

/-- A buffer of one zero byte is sent neither to the console nor to a file that has room for it; of
    129 bytes the first is sent in the place of the last, and 1 is returned. -/
theorem write_loses_bytes :
    (∀ t, (writeCall (counting 0) 1 8 1).run t = .ok (0, t)) ∧
    (∀ t, (writeCall (counting 129) 1 8 129).run t =
      .ok (1, (t.send ((counting 129).bytes 8 128)).send [1]) ∧ ¬ ConsoleRight (counting 129) 8 129 t) ∧
    ∃ s, Reaches Sys.step anyStep (.boot twoFiles [7, 8]) s ∧ s.fdList 7 = [⟨2, 2, 1⟩] ∧
      (writeCall (counting 0) 2 8 1).run ⟨s, []⟩ = .ok (0, ⟨s, []⟩) ∧
      ((fileWrite 2 ((counting 0).at 8) 1).run s.fs).toOption.map (·.1) = some 1 ∧
      ¬ FileRight (counting 0) 2 2 8 1 ⟨s, []⟩ := by
  have hzero : ∀ fd t, (writeCall (counting 0) fd 8 1).run t = .ok (0, t) := fun fd t =>
    writeCall_empty (by decide) (counting_terminated (by decide)) rfl fd 1 t
  refine ⟨hzero 1, fun t => ?_, ?_⟩
  · have hmapped : ∀ i < 129, (counting 129 (8 + i)).isSome := fun i hi => counting_isSome (Nat.le_of_lt hi)
    have hrun : (writeCall (counting 129) 1 8 129).run t = .ok (1, (t.send ((counting 129).bytes 8 128)).send [1]) := by
      rw [writeCall_console (by decide) (counting_terminated (by decide)) (by decide)]
      unfold putChunks
      rw [if_pos (by decide), run_bind_ok (putbuf_run fun i hi => hmapped i (by omega))]
      unfold putChunks
      rw [if_neg (by decide), run_bind_ok (putbuf_run fun i hi => hmapped i (by omega))]
      rfl
    refine ⟨hrun, fun hright => ?_⟩
    have hlen := (ok_inj (hrun.symm.trans hright)).1
    cases hlen
  · obtain ⟨s, hs, hp⟩ := reaches_of_run Sys.step anyStep (.boot twoFiles [7, 8]) [⟨7, namesAB, .open_ 1⟩]
      (fun s => decide (s.fdList 7 = [⟨2, 2, 1⟩] ∧
        ((fileWrite 2 ((counting 0).at 8) 1).run s.fs).toOption.map (·.1) = some 1)) (by decide +kernel)
    obtain ⟨hlist, hwrite⟩ := of_decide_eq_true hp
    refine ⟨s, hs, hlist, hzero 2 _, hwrite, fun hright => ?_⟩
    unfold FileRight at hright
    rw [hzero] at hright
    split at hright
    · rename_i r fs hrun
      obtain ⟨fs', -, heq⟩ := hright
      have hr : r = 0 := (ok_inj heq).1.symm
      rw [show (fileWrite 2 ((counting 0).at 8) 1).run s.fs = .ok (r, fs) from hrun, hr] at hwrite
      cases hwrite
    · cases hright

end Pintos.Files
