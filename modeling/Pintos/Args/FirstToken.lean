/-
  The name of the program in a command line (`exec` of userprog/syscall.c; `process_execute`, `load` and
  `parse` of userprog/process.c).

  `exec` looks for a file with the name up to the first space, and starts a process with a copy of the
  command line.
-/
import Pintos.Args.Stack

namespace Pintos.Args

open Lib List

/-- The name of the file that `exec` opens to see whether there is one. -/
def execName (file : Name) : Name :=
  match file.val.findIdx? (· == 32) with
  | some pSpace => ⟨file.val.take pSpace, fun h => file.property (List.mem_of_mem_take h)⟩
  | none => file

/-- `fn_copy` of `process_execute`: as much of the command line as fits in a page. -/
def fnCopy (file : Name) : Name := ⟨file.val.take (pgSize - 1), fun h => file.property (List.mem_of_mem_take h)⟩

/-- The string in the first row after `parse`, if there is one. -/
def argv0 (m : Matrix) (line : Name) : Option (List UInt8) :=
  match (parse m line).1.str 0 with
  | [] => none
  | c :: str => some (c :: str)

/-- `exec` and `load` look for the same file, and its name is `argv[0]`. -/
structure SameNames (m : Matrix) (file : Name) : Prop where
  load_eq : programName (fnCopy file) = execName file
  argv_eq : argv0 m (fnCopy file) = some (execName file).val

/-- The line starts with a token that fits in a row. -/
def StartsWithToken (file : Name) : Prop :=
  1 ≤ (file.val.takeWhile (· != 32)).length ∧ (file.val.takeWhile (· != 32)).length ≤ 126

variable {m : Matrix} {file : Name}

theorem execName_val (file : Name) : (execName file).val = file.val.takeWhile (· != 32) := by
  unfold execName
  cases h : file.val.findIdx? (· == 32) with
  | some n =>
    have hidx := (findIdx?_eq_some_iff_findIdx_eq.1 h).2
    simp only [takeWhile_eq_take_findIdx_not, bne, Bool.not_not, hidx]
  | none =>
    symm
    rw [takeWhile_eq_self_iff]
    intro c hc
    have := findIdx?_eq_none_iff.1 h c hc
    simpa [bne] using this

theorem argv0_eq_some {str : List UInt8} : argv0 m file = some str ↔ (parse m file).1.str 0 = str ∧ str ≠ [] := by
  unfold argv0
  cases h : (parse m file).1.str 0 with
  | nil =>
    simp only [reduceCtorEq, false_iff, not_and, not_not]
    exact Eq.symm
  | cons c l =>
    simp only [Option.some.injEq, iff_self_and]
    rintro rfl
    simp

theorem length_str_zero (m : Matrix) (file : Name) : ((parse m file).1.str 0).length ≤ 126 := by
  rw [str_parse]
  split_ifs with h h0
  · have hlt : 0 < (fitting file.val).length := lt_of_lt_of_le h (Nat.min_le_right _ _)
    have := (mem_fitting (getElem_mem hlt)).2.2
    rw [getElem?_eq_getElem hlt, Option.getD_some]
    omega
  · exact Nat.zero_le _
  · exact absurd rfl h0

theorem str_zero_of_fits (m : Matrix) (h : StartsWithToken file) :
    (parse m file).1.str 0 = file.val.takeWhile (· != 32) := by
  have hne : file.val.takeWhile (· != 32) ≠ [] := length_pos_iff.1 h.1
  have hfit : fitting file.val = file.val.takeWhile (· != 32) ::
      (tokens ((file.val.dropWhile (· != 32)).drop 1)).filter (·.length < 127) := by
    have hlen : (file.val.takeWhile (· != 32)).length < 127 := Nat.lt_succ_of_le h.2
    rw [fitting, tokens_takeWhile hne, filter_cons_of_pos (by simpa using hlen)]
  have hrow : 0 < rowsUsed file := by
    rw [rowsUsed, hfit, length_cons]
    omega
  rw [str_parse, if_pos hrow, hfit]
  rfl

/-- **The name of the program.**  `exec`, `load` and `parse` take the same name from a command line
    exactly if it starts with a token, of at most 126 characters. -/
theorem same_names_iff (m : Matrix) (file : Name) : SameNames m file ↔ StartsWithToken file := by
  constructor
  · intro h
    have hargv := h.argv_eq
    rw [argv0_eq_some, execName_val] at hargv
    obtain ⟨hrow, hne⟩ := hargv
    refine ⟨length_pos_iff.2 hne, ?_⟩
    rw [← hrow]
    exact length_str_zero m _
  · intro h
    have hcopy : (fnCopy file).val.takeWhile (· != 32) = file.val.takeWhile (· != 32) := by
      have hle : (file.val.takeWhile (· != 32)).length ≤ pgSize - 1 := h.2.trans (by decide)
      rw [fnCopy, ← take_takeWhile, take_of_length_le hle]
    have hstarts : StartsWithToken (fnCopy file) := by
      rwa [StartsWithToken, hcopy]
    constructor
    · apply Subtype.ext
      rwa [execName_val]
    · rw [argv0_eq_some, str_zero_of_fits m hstarts, hcopy, execName_val]
      exact ⟨rfl, length_pos_iff.1 h.1⟩

/-- With a space in front, `exec` and `load` look for a file without a name, and `argv[0]` is `a`. -/
theorem space_in_front : (execName ⟨[32, 97], by decide⟩).val = [] ∧ (programName (fnCopy ⟨[32, 97], by decide⟩)).val = [] ∧
    argv0 (fun _ _ => 0) (fnCopy ⟨[32, 97], by decide⟩) = some [97] ∧ ¬ SameNames (fun _ _ => 0) ⟨[32, 97], by decide⟩ := by
  have hexec : (execName ⟨[32, 97], by decide⟩).val = [] := by decide
  have hargv : argv0 (fun _ _ => 0) (fnCopy ⟨[32, 97], by decide⟩) = some [97] := by decide +kernel
  refine ⟨hexec, by decide, hargv, fun h => ?_⟩
  have := hargv.symm.trans h.argv_eq
  cases this

end Pintos.Args
