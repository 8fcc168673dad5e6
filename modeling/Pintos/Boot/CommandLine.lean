/-
  The kernel's command line (utils/Pintos.pm, `read_command_line` of threads/init.c).

  The script that makes a disk puts the arguments behind the loader, their number first and then 128 bytes
  with the arguments, each with a null byte behind it.  The kernel finds them in memory when it boots.
-/
import Pintos.Fs.Directory
import Pintos.UserMemory

namespace Pintos.Boot

open Lib Prog Function List

/-! ## The script -/

/-- `join ('', map ("$_\0", @args))`. -/
def joinArgs (args : List (List UInt8)) : List UInt8 := args.flatMap (· ++ [0])

/-- `make_kernel_command_line`; `pack ("a128", $args)` is `fit`. -/
def makeKernelCommandLine (args : List (List UInt8)) : Except String (List UInt8) :=
  if 128 < (joinArgs args).length then .error "command line exceeds 128 bytes"
  else .ok (ofWord args.length ++ fit 128 (joinArgs args))

/-! ## The kernel -/

def loaderEnd : ℕ := 0x7e00

def loaderSigLen : ℕ := 2

def loaderPartsLen : ℕ := 64

def loaderArgsLen : ℕ := 128

def loaderArgCntLen : ℕ := 4

def loaderSig : ℕ := loaderEnd - loaderSigLen

def loaderParts : ℕ := loaderSig - loaderPartsLen

def loaderArgs : ℕ := loaderParts - loaderArgsLen

def loaderArgCnt : ℕ := loaderArgs - loaderArgCntLen

def ptov (paddr : ℕ) : ℕ := paddr + physBase

inductive Fault where
  | panic (message : String)
  /-- a write to `argv` outside of the array -/
  | argv (index : ℤ)
  deriving DecidableEq

/-- The elements of `argv`; `none` is the null pointer. -/
abbrev Argv := ℕ → Option ℕ

abbrev BootM := Prog Argv Fault

/-- `argv[i] = p`; the array has `LOADER_ARGS_LEN / 2 + 1` elements. -/
def setArgv (i : ℤ) (p : Option ℕ) : BootM Unit :=
  if 0 ≤ i ∧ i < (loaderArgsLen / 2 + 1 : ℕ) then modify fun argv => update argv i.toNat p
  else throw (.argv i)

def strnlen (mem : ℕ → UInt8) (p n : ℕ) : ℕ := (cstr (slice mem p n)).length

/-- The loop of `read_command_line`, with `n` turns left. -/
def argsLoop (mem : ℕ → UInt8) (end_ : ℕ) : ℕ → ℕ → ℕ → BootM Unit
  | 0, _, _ => pure ()
  | n + 1, i, p =>
    if end_ ≤ p then throw (.panic "command line arguments overflow")
    else do
      setArgv i (some p)
      argsLoop mem end_ n (i + 1) (p + (strnlen mem p (end_ - p) + 1))

/-- `read_command_line`; what it prints is left out. -/
def readCommandLine (mem : ℕ → UInt8) : BootM Unit := do
  let argc : ℤ := Int.bmod (getWord mem (ptov loaderArgCnt)) (2 ^ 32)
  let p := ptov loaderArgs
  argsLoop mem (p + loaderArgsLen) argc.toNat 0 p
  setArgv argc none

/-! ## What is read -/

/-- The string at an address. -/
def StrAt (mem : ℕ → UInt8) (p : ℕ) (s : Name) : Prop := slice mem p (s.val.length + 1) = s.val ++ [0]

section
variable {mem : ℕ → UInt8} {argv : Argv} {args : List Name} {a : Name} {pad : List UInt8} {end_ i p n : ℕ}

theorem setArgv_run (h : n ≤ 64) (o : Option ℕ) : (setArgv n o).run argv = .ok ((), update argv n o) := by
  unfold setArgv
  rw [if_pos ⟨by omega, by change (n : ℤ) < 65; omega⟩]
  rfl

theorem setArgv_overflow (o : Option ℕ) : (setArgv (65 : ℕ) o).run argv = .error (.argv 65) := rfl

theorem joinArgs_cons (a : List UInt8) (l : List (List UInt8)) : joinArgs (a :: l) = a ++ 0 :: joinArgs l := by
  unfold joinArgs
  rw [flatMap_cons, append_assoc]
  rfl

theorem length_le_joinArgs (l : List (List UInt8)) : l.length ≤ (joinArgs l).length := by
  induction l with
  | nil => exact Nat.zero_le _
  | cons a l ih =>
    rw [joinArgs_cons, length_append, length_cons, length_cons]
    omega

theorem slice_cons (h : slice mem p n = joinArgs ((a :: args).map Subtype.val) ++ pad) :
    StrAt mem p a ∧ strnlen mem p n = a.val.length ∧ a.val.length + 1 ≤ n ∧
      slice mem (p + (a.val.length + 1)) (n - (a.val.length + 1)) = joinArgs (args.map Subtype.val) ++ pad := by
  have hsplit : slice mem p n = a.val ++ 0 :: (joinArgs (args.map Subtype.val) ++ pad) := by
    rw [h, map_cons, joinArgs_cons, append_assoc]
    rfl
  have hle : a.val.length + 1 ≤ n := by
    have := congrArg length hsplit
    rw [length_slice, length_append, length_cons] at this
    omega
  refine ⟨?_, ?_, hle, ?_⟩
  · have htake := take_slice mem p n (a.val.length + 1)
    rw [Nat.min_eq_left hle, hsplit] at htake
    unfold StrAt
    rw [← htake, take_append, take_of_length_le (Nat.le_succ _), Nat.add_sub_cancel_left]
    rfl
  · unfold strnlen
    rw [hsplit, cstr_append]
  · rw [← drop_slice, hsplit, drop_append, drop_of_length_le (Nat.le_succ _), Nat.add_sub_cancel_left]
    rfl

theorem argsLoop_run : ∀ (args : List Name) (argv : Argv) (i p : ℕ), p ≤ end_ →
    slice mem p (end_ - p) = joinArgs (args.map Subtype.val) ++ pad → i + args.length ≤ 65 →
    ∃ argv', (argsLoop mem end_ args.length i p).run argv = .ok ((), argv') ∧ (∀ j < i, argv' j = argv j) ∧
      ∀ k (hk : k < args.length), ∃ q, argv' (i + k) = some q ∧ StrAt mem q args[k]
  | [], argv, _, _, _, _, _ => ⟨argv, rfl, fun _ _ => rfl, nofun⟩
  | a :: args, argv, i, p, hp, hslice, hle => by
    obtain ⟨hstr, hlen, hroom, hrest⟩ := slice_cons hslice
    rw [length_cons] at hle
    obtain ⟨argv', hrun, hbefore, hafter⟩ := argsLoop_run args (update argv i (some p)) (i + 1)
      (p + (a.val.length + 1)) (by omega) (by rw [← hrest]; congr 1; omega) (by omega)
    refine ⟨argv', ?_, fun j hj => ?_, fun k hk => ?_⟩
    · rwa [length_cons, argsLoop, if_neg (by omega), run_bind_ok (setArgv_run (by omega) _), hlen]
    · rw [hbefore j (by omega), update_of_ne (by omega)]
    · cases k with
      | zero =>
        refine ⟨p, ?_, hstr⟩
        rw [Nat.add_zero, hbefore i (by omega), update_self]
      | succ k =>
        obtain ⟨q, hq, hstr'⟩ := hafter k (Nat.lt_of_succ_lt_succ hk)
        exact ⟨q, by rw [← hq]; congr 1; omega, hstr'⟩

theorem argsLoop_overflow : ∀ (args : List Name) (argv : Argv) (i p : ℕ), p ≤ end_ →
    slice mem p (end_ - p) = joinArgs (args.map Subtype.val) ++ pad → i ≤ 65 → 65 < i + args.length →
    (argsLoop mem end_ args.length i p).run argv = .error (.argv 65)
  | [], _, _, _, _, _, hi, hlt => absurd hlt (by rw [length_nil]; omega)
  | a :: args, argv, i, p, hp, hslice, hi, hlt => by
    obtain ⟨-, hlen, hroom, hrest⟩ := slice_cons hslice
    rw [length_cons] at hlt
    rw [length_cons, argsLoop, if_neg (by omega)]
    rcases Nat.lt_or_ge i 65 with h | h
    · rw [run_bind_ok (setArgv_run (by omega) _), hlen]
      exact argsLoop_overflow args _ (i + 1) _ (by omega) (by rw [← hrest]; congr 1; omega) (by omega) (by omega)
    · obtain rfl : i = 65 := by omega
      rfl

end

section
variable {args : List Name} {line : List UInt8}

theorem line_read (mem : ℕ → UInt8) (h : makeKernelCommandLine (args.map Subtype.val) = .ok line) :
    args.length ≤ 128 ∧ getWord (store mem (ptov loaderArgCnt) line) (ptov loaderArgCnt) = args.length ∧
      ∃ pad, slice (store mem (ptov loaderArgCnt) line) (ptov loaderArgs) 128 = joinArgs (args.map Subtype.val) ++ pad := by
  unfold makeKernelCommandLine at h
  split_ifs at h with hlen
  obtain rfl := Except.ok.inj h
  have hle := length_le_joinArgs (args.map Subtype.val)
  rw [length_map] at hle ⊢
  refine ⟨by omega, ?_, replicate (128 - (joinArgs (args.map Subtype.val)).length) 0, ?_⟩
  · rw [store_append_left]
    exact getWord_putWord (by omega)
  · have haddr : ptov loaderArgCnt + 4 = ptov loaderArgs := by decide
    rw [store_append, length_ofWord, haddr]
    have hself := slice_store_self (f := store mem (ptov loaderArgCnt) (ofWord args.length)) (a := ptov loaderArgs)
      (l := fit 128 (joinArgs (args.map Subtype.val)))
    rw [length_fit] at hself
    exact hself.trans (fit_of_le (by omega))

variable {mem : ℕ → UInt8}

theorem readCommandLine_eq (hle : args.length ≤ 128) (hcnt : getWord mem (ptov loaderArgCnt) = args.length) :
    readCommandLine mem = (do
      argsLoop mem (ptov loaderArgs + 128) args.length 0 (ptov loaderArgs)
      setArgv args.length none) := by
  unfold readCommandLine
  have hargc : Int.bmod (args.length : ℕ) (2 ^ 32) = args.length := Int.bmod_eq_of_le (by omega) (by omega)
  rw [hcnt, hargc]
  dsimp only
  rfl

theorem readCommandLine_run (h : makeKernelCommandLine (args.map Subtype.val) = .ok line) (hle : args.length ≤ 64)
    (argv : Argv) :
    ∃ argv', (readCommandLine (store mem (ptov loaderArgCnt) line)).run argv = .ok ((), argv') ∧
      argv' args.length = none ∧
      ∀ k (hk : k < args.length), ∃ p, argv' k = some p ∧ StrAt (store mem (ptov loaderArgCnt) line) p args[k] := by
  obtain ⟨hle', hcnt, pad, hslice⟩ := line_read mem h
  rw [readCommandLine_eq hle' hcnt]
  obtain ⟨argv1, hrun, -, hargs⟩ := argsLoop_run args argv 0 (ptov loaderArgs)
    (Nat.le_add_right _ 128) (by rwa [Nat.add_sub_cancel_left]) (by omega)
  refine ⟨_, (run_bind_ok hrun).trans (setArgv_run hle _), update_self .., fun k hk => ?_⟩
  obtain ⟨p, hp, hstr⟩ := hargs k hk
  rw [Nat.zero_add] at hp
  exact ⟨p, (update_of_ne hk.ne ..).trans hp, hstr⟩

theorem readCommandLine_overflow (h : makeKernelCommandLine (args.map Subtype.val) = .ok line) (hlt : 64 < args.length)
    (argv : Argv) : (readCommandLine (store mem (ptov loaderArgCnt) line)).run argv = .error (.argv 65) := by
  obtain ⟨hle', hcnt, pad, hslice⟩ := line_read mem h
  have hslice' : slice (store mem (ptov loaderArgCnt) line) (ptov loaderArgs)
      (ptov loaderArgs + 128 - ptov loaderArgs) = joinArgs (args.map Subtype.val) ++ pad := by
    rwa [Nat.add_sub_cancel_left]
  rw [readCommandLine_eq hle' hcnt]
  rcases Nat.lt_or_ge 65 args.length with hmore | heq
  · have hrun := argsLoop_overflow args argv 0 (ptov loaderArgs) (Nat.le_add_right ..) hslice' (by decide) (by omega)
    rw [StateT.run_bind, hrun]
    rfl
  · -- the null pointer behind the arguments
    obtain ⟨argv1, hrun, -, -⟩ := argsLoop_run args argv 0 (ptov loaderArgs) (Nat.le_add_right ..) hslice' (by omega)
    rw [run_bind_ok hrun, show args.length = 65 by omega]
    exact setArgv_overflow none

/-- **The kernel reads back the arguments it was given if there are at most 64.**  It stays inside of
    `argv`, does not panic, and finds each of the arguments and then the null pointer. -/
theorem command_line_read_iff (mem : ℕ → UInt8) (h : makeKernelCommandLine (args.map Subtype.val) = .ok line) (argv : Argv) :
    (∃ argv', (readCommandLine (store mem (ptov loaderArgCnt) line)).run argv = .ok ((), argv') ∧
      argv' args.length = none ∧
      ∀ k (hk : k < args.length), ∃ p, argv' k = some p ∧ StrAt (store mem (ptov loaderArgCnt) line) p args[k]) ↔
    args.length ≤ 64 := by
  constructor
  · rintro ⟨argv', hrun, -⟩
    by_contra hlt
    rw [readCommandLine_overflow h (by omega)] at hrun
    cases hrun
  · exact fun hle => readCommandLine_run h hle argv

/-- Two arguments, one of them empty. -/
theorem command_line_read_iff_two : ∃ argv line, makeKernelCommandLine [[45, 113], []] = .ok line ∧
    (readCommandLine (store (fun _ => 0) (ptov loaderArgCnt) line)).run (fun _ => none) = .ok ((), argv) ∧
    argv 2 = none := by
  have hmake : makeKernelCommandLine (map Subtype.val [(⟨[45, 113], by decide⟩ : Name), ⟨[], by decide⟩]) = .ok _ := rfl
  obtain ⟨argv, hrun, hnull, -⟩ := (command_line_read_iff (fun _ => 0) hmake fun _ => none).2 (by decide)
  exact ⟨argv, _, hmake, hrun, hnull⟩

/-- 65 empty arguments take 65 bytes, which the script accepts, and one element of `argv` too many. -/
theorem command_line_overflow : ∃ line, makeKernelCommandLine (List.replicate 65 []) = .ok line ∧
    (readCommandLine (store (fun _ => 0) (ptov loaderArgCnt) line)).run (fun _ => none) = .error (.argv 65) := by
  have hmake : makeKernelCommandLine ((replicate 65 (⟨[], by decide⟩ : Name)).map Subtype.val) =
      .ok (ofWord 65 ++ fit 128 (replicate 65 0)) := rfl
  refine ⟨_, ?_, readCommandLine_overflow hmake (by decide) _⟩
  rw [← hmake, map_replicate]

end

end Pintos.Boot
