/-
  The arrays that command lines are copied to (`exec` of userprog/syscall.c; `load`, `parse` and
  `start_process` of userprog/process.c).

  `exec` and `load` copy the name of the program to an array with a byte for each of its characters, and
  `parse` copies the whole line to such an array: there is no room for the null byte, so that each of these
  copies stores one byte behind its array.
-/
import Pintos.Args.FirstToken

namespace Pintos.Args

open Lib List

inductive Access where
  /-- `strlcpy` stores a byte in an array of `size` bytes -/
  | store (size index : ℕ)
  /-- a row of `command` is read -/
  | row (index : ℕ)
  deriving DecidableEq, Repr

/-- The access is to a part of the array. -/
def Access.Within : Access → Prop
  | .store size index => index < size
  | .row index => index < commandWidth

/-- `strlcpy (dst, src, size)`, where `dst` is an array of `dstSize` bytes and `src` a string of
    `srcLen` characters. -/
def strlcpyStores (dstSize srcLen size : ℕ) : List Access :=
  if 0 < size then
    let dstLen := if srcLen < size - 1 then srcLen else size - 1
    (List.range dstLen).map (.store dstSize) ++ [.store dstSize dstLen]
  else []

/-- The copy of the name of the program in `exec` and in `load`: `char file_name_[p_space - file]`. -/
def nameStores (file : Name) : List Access :=
  match file.val.findIdx? (· == 32) with
  | some pSpace => strlcpyStores pSpace file.val.length (pSpace + 1)
  | none => []

/-- The loop of `parse` over the tokens. -/
def parseLoopTraced : ℕ → ℕ → Option (List UInt8 × List UInt8) → Bool → Matrix → (Matrix × Bool) × List Access
  | 0, _, _, err, m => ((m, err), [])
  | _ + 1, _, none, err, m => ((m, err), [])
  | fuel + 1, i, some (token, rest), err, m =>
    if i < commandWidth then
      if token.length < commandLength - 1 then
        let r := parseLoopTraced fuel (i + 1) (strtokR rest) err (m.copy i token)
        (r.1, strlcpyStores commandLength token.length (token.length + 1) ++ r.2)
      else parseLoopTraced fuel i (strtokR rest) true m
    else ((m, err), [])

/-- `parse`, with `char str_modifiable[strlen (str)]`. -/
def parseTraced (m : Matrix) (line : Name) : (Matrix × Bool) × List Access :=
  let r := parseLoopTraced (line.val.length + 1) 0 (strtokR line.val) false (clear m)
  (r.1, strlcpyStores line.val.length line.val.length (line.val.length + 1) ++ r.2)

/-- The rows that a turn of the loop of `start_process` reads. -/
def rowReads (m : Matrix) (i : ℕ) : List Access :=
  .row i :: if m i 0 ≠ 0 then [.row i, .row (i + 1)] else []

/-- The loop of `start_process` over the rows. -/
def pushRowsTraced (m : Matrix) (behind : UInt8) : ℕ → Push → Push × List Access
  | 0, p => (p, [])
  | i + 1, p =>
    let r := pushRowsTraced m behind i (pushRow m behind i p)
    (r.1, rowReads m i ++ r.2)

/-- `start_process`, with `load`, which copies the name if there is a page directory. -/
def startTraced (g : Shared) (st : Start) (pagedir : Bool) : Option (Shared × Option Stack) × List Access :=
  let named := if pagedir then nameStores st.line else []
  let r := parseTraced g.command st.line
  let m := r.1.1
  if st.success then
    let q := pushRowsTraced m st.behind commandWidth ⟨⟨fun _ => 0, physBase⟩, g.commandP, 0, 0⟩
    (if st.Fits then some (⟨m, q.1.commandP⟩, some (pushArgs q.1)) else none, named ++ (r.2 ++ q.2))
  else (if st.Fits then some (⟨m, g.commandP⟩, none) else none, named ++ r.2)

/-- A call of `exec`, and how it goes on. -/
structure Exec where
  file : Name
  /-- `filesys_open` finds the file -/
  opened : Bool
  /-- `process_execute` has a page for the copy of the line, and a thread -/
  started : Bool
  /-- `load` has a page directory -/
  pagedir : Bool
  start : Start
  line_eq : start.line = fnCopy file

/-- The accesses of `exec` and of the process it starts.  The name is copied once more for the message
    that there is no such file. -/
def accesses (g : Shared) (x : Exec) : List Access :=
  nameStores x.file ++
    if x.opened then
      if x.started then (startTraced g x.start x.pagedir).2 else []
    else nameStores x.file

variable {m : Matrix} {file : Name} {a : Access} {n : ℕ}

/-! ## The traces are those of the model -/

theorem parseLoopTraced_fst : ∀ fuel i o err (m : Matrix), (parseLoopTraced fuel i o err m).1 = parseLoop fuel i o err m
  | 0, _, _, _, _ => rfl
  | _ + 1, _, none, _, _ => rfl
  | fuel + 1, i, some (token, rest), err, m => by
    unfold parseLoopTraced parseLoop
    split_ifs
    · exact parseLoopTraced_fst fuel (i + 1) (strtokR rest) err (m.copy i token)
    · exact parseLoopTraced_fst fuel i (strtokR rest) true m
    · rfl

theorem parseTraced_fst (m : Matrix) (line : Name) : (parseTraced m line).1 = parse m line := parseLoopTraced_fst _ _ _ _ _

theorem pushRowsTraced_fst (m : Matrix) (behind : UInt8) : ∀ i p, (pushRowsTraced m behind i p).1 = pushRows m behind i p
  | 0, _ => rfl
  | i + 1, p => pushRowsTraced_fst m behind i (pushRow m behind i p)

theorem startTraced_fst (g : Shared) (st : Start) (pagedir : Bool) : (startTraced g st pagedir).1 = startProcess g st := by
  unfold startTraced startProcess pushed
  dsimp only
  rw [parseTraced_fst, pushRowsTraced_fst]
  split_ifs <;> rfl

theorem startTraced_snd (g : Shared) (st : Start) (pagedir : Bool) : (startTraced g st pagedir).2 =
    (if pagedir then nameStores st.line else []) ++ ((parseTraced g.command st.line).2 ++
      if st.success then (pushRowsTraced (parse g.command st.line).1 st.behind commandWidth
        ⟨⟨fun _ => 0, physBase⟩, g.commandP, 0, 0⟩).2 else []) := by
  unfold startTraced
  dsimp only
  rw [parseTraced_fst]
  cases st.success
  · rw [if_neg Bool.false_ne_true, if_neg Bool.false_ne_true, append_nil]
  · rw [if_pos rfl, if_pos rfl]

/-! ## Copies -/

theorem mem_strlcpyStores {size srcLen : ℕ} (h : n ≤ srcLen) : a ∈ strlcpyStores size srcLen (n + 1) ↔ ∃ i ≤ n, a = .store size i := by
  have hlen : (if srcLen < n + 1 - 1 then srcLen else n + 1 - 1) = n := by
    rw [if_neg (by omega), Nat.add_sub_cancel]
  unfold strlcpyStores
  rw [if_pos (Nat.succ_pos n)]
  rw [hlen, mem_append, mem_map, mem_singleton]
  constructor
  · rintro (⟨i, hi, rfl⟩ | rfl)
    · exact ⟨i, (mem_range.1 hi).le, rfl⟩
    · exact ⟨n, le_rfl, rfl⟩
  · rintro ⟨i, hi, rfl⟩
    rcases Nat.lt_or_eq_of_le hi with hlt | rfl
    · exact .inl ⟨i, mem_range.2 hlt, rfl⟩
    · exact .inr rfl

theorem tight_store {srcLen : ℕ} (h : n ≤ srcLen) (ha : a ∈ strlcpyStores n srcLen (n + 1)) (hout : ¬ a.Within) : a = .store n n := by
  obtain ⟨i, hi, rfl⟩ := (mem_strlcpyStores h).1 ha
  have hle : n ≤ i := Nat.not_lt.1 hout
  rw [Nat.le_antisymm hi hle]

theorem nameStores_eq_nil (h : 32 ∉ file.val) : nameStores file = [] := by
  unfold nameStores
  have hidx : file.val.findIdx? (· == 32) = none := by
    refine findIdx?_eq_none_iff.2 fun x hx => beq_false_of_ne ?_
    rintro rfl
    exact h hx
  rw [hidx]

theorem nameStores_out (h : 32 ∈ file.val) : ∃ n, Access.store n n ∈ nameStores file := by
  unfold nameStores
  cases hidx : file.val.findIdx? (· == 32) with
  | none => exact absurd (findIdx?_eq_none_iff.1 hidx 32 h) (by decide)
  | some n =>
    have hlt := (findIdx?_eq_some_iff_getElem.1 hidx).1
    exact ⟨n, (mem_strlcpyStores hlt.le).2 ⟨n, le_rfl, rfl⟩⟩

theorem outside_nameStores (ha : a ∈ nameStores file) (hout : ¬ a.Within) : ∃ n, a = .store n n := by
  unfold nameStores at ha
  cases hidx : file.val.findIdx? (· == 32) with
  | none => rw [hidx] at ha; cases ha
  | some n =>
    rw [hidx] at ha
    have hlt := (findIdx?_eq_some_iff_getElem.1 hidx).1
    exact ⟨n, tight_store hlt.le ha hout⟩

theorem within_parseLoop : ∀ fuel i o err (m : Matrix), ∀ a ∈ (parseLoopTraced fuel i o err m).2, a.Within
  | 0, _, _, _, _, a, ha => by cases ha
  | _ + 1, _, none, _, _, a, ha => by cases ha
  | fuel + 1, i, some (token, rest), err, m, a, ha => by
    unfold parseLoopTraced at ha
    split_ifs at ha with hi hlen
    · rcases mem_append.1 ha with ha | ha
      · obtain ⟨j, hj, rfl⟩ := (mem_strlcpyStores le_rfl).1 ha
        unfold Access.Within
        omega
      · exact within_parseLoop fuel _ _ _ _ a ha
    · exact within_parseLoop fuel _ _ _ _ a ha
    · cases ha

/-! ## Rows -/

theorem outside_rows (behind : UInt8) : ∀ i p, i ≤ commandWidth → ∀ a ∈ (pushRowsTraced m behind i p).2, ¬ a.Within →
    a = .row commandWidth ∧ m 29 0 ≠ 0
  | 0, _, _, a, ha, _ => by cases ha
  | i + 1, p, hi, a, ha, hout => by
    rcases mem_append.1 ha with ha | ha
    · rcases mem_cons.1 ha with rfl | ha
      · exact absurd hi hout
      · split_ifs at ha with h0
        · rcases mem_cons.1 ha with rfl | ha
          · exact absurd hi hout
          · obtain rfl := mem_singleton.1 ha
            have hi29 : i + 1 = commandWidth := Nat.le_antisymm hi (Nat.not_lt.1 hout)
            obtain rfl : i = 29 := Nat.succ.inj hi29
            exact ⟨rfl, h0⟩
        · cases ha
    · exact outside_rows behind i _ (Nat.le_of_succ_le hi) a ha hout

theorem parse_store_mem (g : Shared) (st : Start) (pagedir : Bool) :
    Access.store st.line.val.length st.line.val.length ∈ (startTraced g st pagedir).2 := by
  have hmem : Access.store st.line.val.length st.line.val.length ∈ (parseTraced g.command st.line).2 :=
    mem_append_left _ ((mem_strlcpyStores le_rfl).2 ⟨_, le_rfl, rfl⟩)
  rw [startTraced_snd]
  exact mem_append_right _ (mem_append_left _ hmem)

theorem outside_start {g : Shared} {st : Start} {pagedir : Bool} (ha : a ∈ (startTraced g st pagedir).2) (hout : ¬ a.Within) :
    (∃ n, a = .store n n) ∨ a = .row commandWidth ∧ (parse g.command st.line).1.str 29 ≠ [] := by
  rw [startTraced_snd] at ha
  rcases mem_append.1 ha with ha | ha
  · split_ifs at ha
    · exact .inl (outside_nameStores ha hout)
    · cases ha
  rcases mem_append.1 ha with ha | ha
  · rcases mem_append.1 ha with ha | ha
    · exact .inl ⟨_, tight_store le_rfl ha hout⟩
    · exact absurd (within_parseLoop _ _ _ _ _ a ha) hout
  · split_ifs at ha
    · obtain ⟨hrow, h29⟩ := outside_rows st.behind commandWidth _ le_rfl a ha hout
      exact .inr ⟨hrow, fun hnil => h29 ((str_eq_nil _ _).1 hnil)⟩
    · cases ha

/-- All accesses are to parts of the arrays if and only if the line has no space and no process is
    started with it.  The others are to the byte behind an array, or to the row behind the last row
    if that is in use. -/
theorem in_bounds_iff (g : Shared) (x : Exec) :
    ((∀ a ∈ accesses g x, a.Within) ↔ 32 ∉ x.file.val ∧ ¬ (x.opened = true ∧ x.started = true)) ∧
    ∀ a ∈ accesses g x, ¬ a.Within →
      (∃ n, a = .store n n) ∨ a = .row commandWidth ∧ (parse g.command x.start.line).1.str 29 ≠ [] := by
  refine ⟨⟨fun h => ⟨fun hspace => ?_, fun ⟨hopened, hstarted⟩ => ?_⟩, fun ⟨hspace, hnot⟩ a ha => ?_⟩, fun a ha hout => ?_⟩
  · obtain ⟨n, hn⟩ := nameStores_out hspace
    exact absurd (h _ (mem_append_left _ hn)) (Nat.lt_irrefl n)
  · have hmem := parse_store_mem g x.start x.pagedir
    have hpart : accesses g x = nameStores x.file ++ (startTraced g x.start x.pagedir).2 := by
      unfold accesses
      rw [if_pos hopened, if_pos hstarted]
    exact absurd (h _ (hpart ▸ mem_append_right _ hmem)) (Nat.lt_irrefl _)
  · unfold accesses at ha
    rw [nameStores_eq_nil hspace, nil_append] at ha
    split_ifs at ha with hopened hstarted
    · exact absurd ⟨hopened, hstarted⟩ hnot
    · cases ha
    · cases ha
  · rcases mem_append.1 ha with ha | ha
    · exact .inl (outside_nameStores ha hout)
    · split_ifs at ha
      · exact outside_start ha hout
      · cases ha
      · exact .inl (outside_nameStores ha hout)

/-- `exec` of a line whose program is started. -/
def execOf (st : Start) (h : fnCopy st.line = st.line) : Exec := ⟨st.line, true, true, true, st, h.symm⟩

/-- `exec ("a b")` stores a byte behind `file_name_`, `exec ("a")` one behind `str_modifiable`, and with
    thirty tokens the row behind the last one is read. -/
theorem copies_overrun :
    (∃ x : Exec, x.file.val = [97, 32, 98] ∧ .store 1 1 ∈ accesses .boot x) ∧
    (∃ x : Exec, x.file.val = [97] ∧ .store 1 1 ∈ accesses .boot x) ∧
    (∃ x : Exec, (tokens x.file.val).length = 31 ∧ .row 30 ∈ accesses .boot x) ∧
    ¬ (Access.store 1 1).Within ∧ ¬ (Access.row 30).Within := by
  refine ⟨⟨execOf (startA ⟨[97, 32, 98], by decide⟩ (by decide)) (by decide), rfl, by decide +kernel⟩,
    ⟨execOf alone (by decide), rfl, by decide +kernel⟩,
    ⟨execOf withMany (by decide +kernel), by decide +kernel, by decide +kernel⟩, Nat.lt_irrefl 1, Nat.lt_irrefl 30⟩

end Pintos.Args
