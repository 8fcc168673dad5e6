/-
  The initial stack of a process (`start_process` of userprog/process.c).

  The strings in the rows of the matrix are pushed from the last row to the first, then pointers to them,
  `argv`, `argc` and a return address.  `command_amount` is one more than the last row whose successor is
  empty; the successor of the last row is the byte behind the matrix.  So the strings that earlier command
  lines left in the rows are arguments as well.
-/
import Pintos.Args.Parse
import Pintos.Fs.Extents
import Pintos.UserMemory

namespace Pintos.Args

open Lib Function List

/-! ## Pushing -/

structure Stack where
  mem : ℕ → UInt8
  sp : ℕ

namespace Stack

/-- `*--sp = c`. -/
def pushByte (s : Stack) (c : UInt8) : Stack := ⟨update s.mem (s.sp - 1) c, s.sp - 1⟩

/-- Push zeros one by one. -/
def pushZeros : ℕ → Stack → Stack
  | 0, s => s
  | n + 1, s => pushZeros n (s.pushByte 0)

/-- Push the lowest `k` bytes of a word, the highest of them first. -/
def pushBytes (v : ℕ) : ℕ → Stack → Stack
  | 0, s => s
  | k + 1, s => pushBytes v k (s.pushByte (UInt8.ofNat (v >>> (8 * k))))

def pushWord (s : Stack) (v : ℕ) : Stack := pushBytes v 4 s

/-- `command_p[i]` for the `i` below `n`, from the last one on. -/
def pushPointers (commandP : ℕ → ℕ) : ℕ → Stack → Stack
  | 0, s => s
  | i + 1, s => pushPointers commandP i (s.pushWord (commandP i))

end Stack

/-- The variables of the loop over the rows. -/
structure Push extends Stack where
  commandP : ℕ → ℕ
  totalLength : ℕ
  commandAmount : ℕ

/-- One turn of the loop; `behind` is `command[COMMAND_WIDTH][0]`. -/
def pushRow (m : Matrix) (behind : UInt8) (i : ℕ) (p : Push) : Push :=
  if m i 0 ≠ 0 then
    { mem := store p.mem (p.sp - (m.str i).length - 1) (m.str i ++ [0])
      sp := p.sp - (m.str i).length - 1
      commandP := update p.commandP i (p.sp - (m.str i).length - 1)
      totalLength := p.totalLength + ((m.str i).length + 1)
      commandAmount := if (if i + 1 < commandWidth then m (i + 1) 0 else behind) = 0 then i + 1 else p.commandAmount }
  else p

/-- The rows below `i`, from the last one on. -/
def pushRows (m : Matrix) (behind : UInt8) : ℕ → Push → Push
  | 0, p => p
  | i + 1, p => pushRows m behind i (pushRow m behind i p)

/-- What is pushed below the strings. -/
def pushArgs (p : Push) : Stack :=
  let s := Stack.pushZeros 4 (Stack.pushZeros (4 - p.totalLength % 4) p.toStack)
  let s := Stack.pushPointers p.commandP p.commandAmount s
  let argvP := if p.commandAmount = 0 then 0 else s.sp
  let s := s.pushWord argvP
  Stack.pushZeros 4 ⟨store s.mem (s.sp - 4) (ofWord p.commandAmount), s.sp - 4⟩

/-! ## Starting processes -/

/-- The part of a command line that `load` opens as a file. -/
def programName (line : Name) : Name :=
  ⟨line.val.takeWhile (· != 32), fun h => line.property ((List.takeWhile_sublist _).subset h)⟩

/-- A start of a process: its command line, whether `load` succeeds, the byte behind the matrix, and the bytes of the
    kernel stack between the frame of `parse` and `struct thread`.  `load` has opened the file of the program if it
    succeeds. -/
structure Start where
  line : Name
  success : Bool
  behind : UInt8
  room : ℕ
  opens : success = true → ∃ fs fs' f, fs.Formatted ∧ (filesysOpen (programName line)).run fs = .ok (some f, fs')

/-- The static variables. -/
structure Shared where
  command : Matrix
  commandP : ℕ → ℕ

def Shared.boot : Shared := ⟨fun _ _ => 0, fun _ => 0⟩

/-- `char str_modifiable[strlen (str)]` of `parse` is above `struct thread`. -/
def Start.Fits (st : Start) : Prop := st.line.val.length ≤ st.room

instance (st : Start) : Decidable st.Fits := inferInstanceAs (Decidable (_ ≤ _))

/-- `start_process` from the call of `parse` on: the stack of the process, if the thread does not exit. -/
def pushed (g : Shared) (st : Start) : Shared × Option Stack :=
  let m := (parse g.command st.line).1
  if st.success then
    let p := pushRows m st.behind commandWidth ⟨⟨fun _ => 0, physBase⟩, g.commandP, 0, 0⟩
    (⟨m, p.commandP⟩, some (pushArgs p))
  else (⟨m, g.commandP⟩, none)

/-- `start_process`.  A copy of the line that does not fit overwrites `struct thread`, and `thread_current ()` panics. -/
def startProcess (g : Shared) (st : Start) : Option (Shared × Option Stack) :=
  if st.Fits then some (pushed g st) else none

/-- The static variables after some starts, unless the kernel panics. -/
def after (history : List Start) : Option Shared :=
  history.foldlM (fun g st => (startProcess g st).map Prod.fst) .boot

/-! ## Arguments on a stack -/

def word (mem : ℕ → UInt8) (a : ℕ) : ℕ := toWord (slice mem a 4)

/-- A string of the stack at an address. -/
def Stack.Holds (s : Stack) (p : ℕ) (str : List UInt8) : Prop :=
  s.sp ≤ p ∧ p + str.length + 1 ≤ physBase ∧ slice s.mem p (str.length + 1) = str ++ [0]

/-- The stack has the arguments: their number, and an array of pointers to them. -/
structure StackOk (s : Stack) (args : List (List UInt8)) : Prop where
  inside : physBase - pgSize ≤ s.sp
  argc : word s.mem (s.sp + 4) = args.length
  argv_le : s.sp ≤ word s.mem (s.sp + 8) ∧ word s.mem (s.sp + 8) + 4 * (args.length + 1) ≤ physBase
  argv : ∀ i arg, args[i]? = some arg → s.Holds (word s.mem (word s.mem (s.sp + 8) + 4 * i)) arg
  null : word s.mem (word s.mem (s.sp + 8) + 4 * args.length) = 0

/-- If `load` succeeds, the kernel does not panic, and the process gets the tokens of its command line or exits. -/
def ArgsPassed (history : List Start) (st : Start) : Prop :=
  st.success = true → ∀ g, after history = some g → ∃ r, startProcess g st = some r ∧
    ∀ s, r.2 = some s → StackOk s (tokens st.line.val)

/-- The line fits in the kernel stack and its tokens in the matrix, whose rows behind them are empty. -/
structure ArgsOk (history : List Start) (st : Start) : Prop where
  fits : st.Fits
  length_le : ∀ t ∈ tokens st.line.val, t.length ≤ 126
  count_le : (tokens st.line.val).length ≤ 30
  behind : (tokens st.line.val).length = 30 → st.behind = 0
  history : ∀ st' ∈ history, rowsUsed st'.line ≤ (tokens st.line.val).length

/-! ## What is pushed -/

variable {s : Stack} {p : Push} {m : Matrix} {behind : UInt8} {i k n N v : ℕ}

namespace Stack

theorem pushZeros_eq (h : n ≤ s.sp) : pushZeros n s = ⟨store s.mem (s.sp - n) (List.replicate n 0), s.sp - n⟩ := by
  induction n generalizing s with
  | zero => rw [replicate_zero, store_nil]; rfl
  | succ n ih =>
    unfold pushZeros pushByte
    rw [ih (show n ≤ s.sp - 1 by omega), replicate_succ', store_append_left, length_replicate, store_singleton,
      Nat.sub_sub, Nat.add_comm 1 n, show s.sp - (n + 1) + n = s.sp - 1 by omega]

theorem pushWord_eq (h : 4 ≤ s.sp) : s.pushWord v = ⟨store s.mem (s.sp - 4) (ofWord v), s.sp - 4⟩ := by
  have hword : ofWord v = [UInt8.ofNat v] ++ ([UInt8.ofNat (v / 2 ^ 8)] ++ ([UInt8.ofNat (v / 2 ^ 16)] ++
    [UInt8.ofNat (v / 2 ^ 24)])) := rfl
  unfold pushWord pushBytes pushBytes pushBytes pushBytes pushBytes pushByte
  rw [hword, store_append_left, store_append_left, store_append_left]
  simp only [store_singleton, length_singleton, Nat.shiftRight_eq_div_pow, Nat.sub_sub, Nat.mul_zero, Nat.pow_zero,
    Nat.div_one]
  rw [show s.sp - 4 + 1 = s.sp - 3 by omega, show s.sp - 3 + 1 = s.sp - 2 by omega, show s.sp - 2 + 1 = s.sp - 1 by omega]

end Stack

theorem word_congr {mem mem' : ℕ → UInt8} {a : ℕ} (h : ∀ j < 4, mem (a + j) = mem' (a + j)) : word mem a = word mem' a := by
  rw [word, word, slice_congr h]

theorem word_store (mem : ℕ → UInt8) (a : ℕ) (h : v < 2 ^ 32) : word (store mem a (ofWord v)) a = v := by
  have hs : slice (store mem a (ofWord v)) a 4 = ofWord v := slice_store_self
  rw [word, hs, toWord_ofWord h]

theorem word_zeros (mem : ℕ → UInt8) (a : ℕ) : word (store mem a (List.replicate 4 0)) a = 0 := by
  have hs : slice (store mem a (replicate 4 (0 : UInt8))) a 4 = replicate 4 0 := slice_store_self
  rw [word, hs]
  rfl

theorem pushPointers_spec {commandP : ℕ → ℕ} (hp : ∀ i < n, commandP i < 2 ^ 32) (h : 4 * n ≤ s.sp) :
    (Stack.pushPointers commandP n s).sp = s.sp - 4 * n ∧
      (∀ a, s.sp ≤ a → (Stack.pushPointers commandP n s).mem a = s.mem a) ∧
      ∀ i < n, word (Stack.pushPointers commandP n s).mem (s.sp - 4 * n + 4 * i) = commandP i := by
  induction n generalizing s with
  | zero => exact ⟨rfl, fun _ _ => rfl, nofun⟩
  | succ n ih =>
    unfold Stack.pushPointers
    obtain ⟨hsp, habove, hwords⟩ := ih (s := s.pushWord (commandP n)) (fun i hi => hp i (by omega))
      (by rw [Stack.pushWord_eq (by omega)]; show 4 * n ≤ s.sp - 4; omega)
    rw [Stack.pushWord_eq (by omega)] at hsp habove hwords ⊢
    dsimp only at hsp habove hwords ⊢
    refine ⟨by omega, fun a ha => ?_, fun i hi => ?_⟩
    · rw [habove a (by omega)]
      exact store_apply_of_ge (by rw [length_ofWord]; omega)
    · by_cases hin : i = n
      · subst hin
        rw [show s.sp - 4 * (i + 1) + 4 * i = s.sp - 4 by omega, word_congr fun j _ => habove _ (by omega),
          word_store _ _ (hp i (by omega))]
      · have := hwords i (by omega)
        rwa [show s.sp - 4 - 4 * n = s.sp - 4 * (n + 1) by omega] at this

theorem pushArgs_spec (hsp : 200 ≤ p.sp) (hlt : p.sp < 2 ^ 32) (hN : p.commandAmount ≤ 30)
    (hp : ∀ i < p.commandAmount, p.commandP i < 2 ^ 32) :
    ∃ a, (pushArgs p).sp + 12 = a ∧ a + 4 * (p.commandAmount + 1) ≤ p.sp ∧
      p.sp ≤ a + 4 * (p.commandAmount + 1) + 4 ∧
      word (pushArgs p).mem ((pushArgs p).sp + 4) = p.commandAmount ∧
      word (pushArgs p).mem ((pushArgs p).sp + 8) = (if p.commandAmount = 0 then 0 else a) ∧
      (∀ i < p.commandAmount, word (pushArgs p).mem (a + 4 * i) = p.commandP i) ∧
      word (pushArgs p).mem (a + 4 * p.commandAmount) = 0 ∧
      ∀ x, p.sp ≤ x → (pushArgs p).mem x = p.mem x := by
  -- zeros, among them the null pointer
  set d := 4 - p.totalLength % 4 with hd
  set s1 := Stack.pushZeros 4 (Stack.pushZeros d p.toStack) with hs1
  have hs1' : s1 = ⟨store (store p.mem (p.sp - d) (List.replicate d 0)) (p.sp - d - 4) (List.replicate 4 0), p.sp - d - 4⟩ := by
    rw [hs1, Stack.pushZeros_eq (show d ≤ p.sp by omega), Stack.pushZeros_eq (show 4 ≤ p.sp - d by omega)]
  have hsp1 : s1.sp = p.sp - d - 4 := by rw [hs1']
  have hnull : word s1.mem s1.sp = 0 := by rw [hs1']; exact word_zeros _ _
  have habove1 : ∀ x, p.sp ≤ x → s1.mem x = p.mem x := by
    intro x hx
    rw [hs1']
    dsimp only
    rw [store_apply_of_ge (by rw [length_replicate]; omega), store_apply_of_ge (by rw [length_replicate]; omega)]
  -- pointers
  obtain ⟨hsp2, habove2, hwords⟩ := pushPointers_spec (s := s1) hp (by omega)
  set s2 := Stack.pushPointers p.commandP p.commandAmount s1 with hs2
  set v := if p.commandAmount = 0 then 0 else s2.sp with hv
  have hvlt : v < 2 ^ 32 := by
    rw [hv]
    split_ifs <;> omega
  -- the words below
  have heq : pushArgs p = ⟨store (store (store s2.mem (s2.sp - 4) (ofWord v)) (s2.sp - 8) (ofWord p.commandAmount))
      (s2.sp - 12) (List.replicate 4 0), s2.sp - 12⟩ := by
    change Stack.pushZeros 4 ⟨store (s2.pushWord v).mem ((s2.pushWord v).sp - 4) (ofWord p.commandAmount),
      (s2.pushWord v).sp - 4⟩ = _
    rw [Stack.pushWord_eq (by omega), Stack.pushZeros_eq (show 4 ≤ s2.sp - 4 - 4 by omega)]
    rfl
  have habove : ∀ x, s2.sp ≤ x → (pushArgs p).mem x = s2.mem x := by
    intro x hx
    rw [heq]
    dsimp only
    rw [store_apply_of_ge (by rw [length_replicate]; omega), store_apply_of_ge (by rw [length_ofWord]; omega),
      store_apply_of_ge (by rw [length_ofWord]; omega)]
  have hspa : (pushArgs p).sp = s2.sp - 12 := by rw [heq]
  refine ⟨s2.sp, by omega, by omega, by omega, ?_, ?_, fun i hi => ?_, ?_, fun x hx => ?_⟩
  · rw [hspa, show s2.sp - 12 + 4 = s2.sp - 8 by omega, heq]
    dsimp only
    rw [word_congr fun j _ => store_apply_of_ge (by rw [length_replicate]; omega), word_store _ _ (by omega)]
  · rw [hspa, show s2.sp - 12 + 8 = s2.sp - 4 by omega, heq]
    dsimp only
    rw [word_congr fun j _ => store_apply_of_ge (by rw [length_replicate]; omega),
      word_congr fun j _ => store_apply_of_ge (by rw [length_ofWord]; omega), word_store _ _ hvlt]
  · rw [word_congr fun j _ => habove _ (by omega), hsp2, hwords i hi]
  · rw [word_congr fun j _ => habove _ (by omega), show s2.sp + 4 * p.commandAmount = s1.sp by omega,
      word_congr fun j _ => habove2 _ (by omega), hnull]
  · rw [habove x (by omega), habove2 x (by omega), habove1 x hx]

/-! ## The strings -/

/-- The rows from `i` on are pushed, of which those below `N` have strings. -/
structure Pushed (m : Matrix) (behind : UInt8) (N i : ℕ) (p : Push) : Prop where
  sp_le : p.sp ≤ physBase
  le_sp : physBase ≤ p.sp + 127 * (30 - i)
  strings : ∀ k, i ≤ k → k < N → p.toStack.Holds (p.commandP k) (m.str k)
  amount : p.commandAmount = if i < N ∧ (N < 30 ∨ behind = 0) then N else 0

theorem Pushed.row (h : Pushed m behind N (i + 1) p) (hi : i < 30) (hN : N ≤ 30) (hlen : (m.str i).length < 127)
    (hrows : ∀ k < 30, m.str k ≠ [] ↔ k < N) : Pushed m behind N i (pushRow m behind i p) := by
  have hle := h.le_sp
  unfold pushRow
  by_cases hrow : m i 0 = 0
  · have hiN : ¬ i < N := fun hlt => (hrows i hi).2 hlt ((str_eq_nil m i).2 hrow)
    rw [if_neg (not_not.2 hrow)]
    refine ⟨h.sp_le, by omega, fun k h1 h2 => absurd h2 (by omega), ?_⟩
    rw [h.amount, if_neg (by omega), if_neg (by omega)]
  · have hiN : i < N := (hrows i hi).1 fun hnil => hrow ((str_eq_nil m i).1 hnil)
    rw [if_pos hrow]
    have hsple := h.sp_le
    have hbig : 127 * 30 < physBase := by decide
    refine ⟨by dsimp only; omega, by dsimp only; omega, fun k h1 h2 => ?_, ?_⟩
    · unfold Stack.Holds
      dsimp only
      by_cases hk : k = i
      · subst hk
        rw [update_self]
        refine ⟨le_rfl, by omega, ?_⟩
        have := slice_store_self (f := p.mem) (a := p.sp - (m.str k).length - 1) (l := m.str k ++ [0])
        rwa [length_append, length_singleton] at this
      · obtain ⟨h3, h4, h5⟩ := h.strings k (by omega) h2
        rw [update_of_ne hk]
        refine ⟨by omega, h4, ?_⟩
        rw [slice_store_of_disjoint (.inl (by rw [length_append, length_singleton]; omega)), h5]
    · dsimp only
      by_cases hlast : i + 1 < commandWidth
      · have hnext : m (i + 1) 0 ≠ 0 ↔ i + 1 < N := by rw [← hrows _ hlast, ne_eq, ne_eq, str_eq_nil]
        rw [if_pos hlast, h.amount]
        by_cases hn : i + 1 < N
        · rw [if_neg (hnext.2 hn)]
          exact if_congr (and_congr_left fun _ => by omega) rfl rfl
        · obtain rfl : N = i + 1 := by omega
          rw [if_pos (not_not.1 fun hne => hn (hnext.1 hne)), if_pos ⟨hiN, .inl hlast⟩]
      · have hi29 : i = 29 := by unfold commandWidth at hlast; omega
        obtain rfl : N = 30 := by omega
        rw [if_neg hlast]
        by_cases hb : behind = 0
        · rw [if_pos hb, if_pos ⟨hiN, .inr hb⟩, hi29]
        · rw [if_neg hb, h.amount, if_neg (by omega), if_neg fun hor => hor.2.elim (lt_irrefl 30) hb]

theorem Pushed.rows (h : Pushed m behind N i p) (hi : i ≤ 30) (hN : N ≤ 30) (hlen : ∀ k < 30, (m.str k).length < 127)
    (hrows : ∀ k < 30, m.str k ≠ [] ↔ k < N) : Pushed m behind N 0 (pushRows m behind i p) := by
  induction i generalizing p with
  | zero => exact h
  | succ i ih => exact ih (h.row (by omega) hN (hlen i (by omega)) hrows) (by omega)

/-- The strings in the rows below `N` are the arguments, if the last of these rows is found. -/
structure Built (m : Matrix) (behind : UInt8) (N : ℕ) (s : Stack) : Prop where
  argc : word s.mem (s.sp + 4) = if N < 30 ∨ behind = 0 then N else 0
  argv : (N < 30 ∨ behind = 0) → 0 < N → physBase - pgSize ≤ s.sp ∧ s.sp ≤ word s.mem (s.sp + 8) ∧
    word s.mem (s.sp + 8) + 4 * (N + 1) ≤ physBase ∧
    (∀ k < N, s.Holds (word s.mem (word s.mem (s.sp + 8) + 4 * k)) (m.str k)) ∧
    word s.mem (word s.mem (s.sp + 8) + 4 * N) = 0

theorem pushArgs_built {commandP : ℕ → ℕ} (hN : N ≤ 30) (hlen : ∀ k < 30, (m.str k).length < 127)
    (hrows : ∀ k < 30, m.str k ≠ [] ↔ k < N) :
    Built m behind N (pushArgs (pushRows m behind commandWidth ⟨⟨fun _ => 0, physBase⟩, commandP, 0, 0⟩)) := by
  set s := pushArgs (pushRows m behind commandWidth ⟨⟨fun _ => 0, physBase⟩, commandP, 0, 0⟩) with hs
  have hboot : Pushed m behind N 30 ⟨⟨fun _ => 0, physBase⟩, commandP, 0, 0⟩ :=
    ⟨le_rfl, le_rfl, fun k h1 h2 => absurd h2 (by omega), by rw [if_neg (by omega)]⟩
  have h := hboot.rows le_rfl hN hlen hrows
  set p := pushRows m behind 30 ⟨⟨fun _ => 0, physBase⟩, commandP, 0, 0⟩ with hp
  have hamount := h.amount
  have hle := h.le_sp
  have hbase : physBase = 3221225472 := rfl
  have hsp := h.sp_le
  have hpointer : ∀ i < p.commandAmount, p.commandP i < 2 ^ 32 := by
    intro i hi
    have hiN : i < N := by
      rw [hamount] at hi
      split_ifs at hi <;> omega
    obtain ⟨-, hle, -⟩ := h.strings i (Nat.zero_le i) hiN
    omega
  obtain ⟨a, ha, hal, hau, hargc, hargv, hwords, hnull, habove⟩ := pushArgs_spec (by omega) (by omega)
    (by rw [hamount]; split_ifs <;> omega) hpointer
  refine ⟨?_, fun hlast hpos => ?_⟩
  · refine hargc.trans (hamount.trans ?_)
    by_cases hC : N < 30 ∨ behind = 0
    · rw [if_pos hC]
      split_ifs with h0
      · rfl
      · exact (Nat.eq_zero_of_not_pos fun hpos => h0 ⟨hpos, hC⟩).symm
    · rw [if_neg hC, if_neg fun h0 => hC h0.2]
  · rw [if_pos ⟨hpos, hlast⟩] at hamount
    rw [hamount] at hal hargc hargv hwords hnull hau
    rw [if_neg (by omega)] at hargv
    change word s.mem (s.sp + 8) = a at hargv
    rw [hargv]
    have hpg : pgSize = 4096 := rfl
    have hsa : s.sp + 12 = a := ha
    refine ⟨by omega, by omega, by omega, fun k hk => ?_, hnull⟩
    obtain ⟨h1, h2, h3⟩ := h.strings k (Nat.zero_le k) hk
    rw [show word s.mem (a + 4 * k) = _ from hwords k hk]
    refine ⟨by omega, h2, ?_⟩
    rw [← h3]
    exact slice_congr fun j _ => habove _ (by omega)

/-! ## The matrix after some starts -/

/-- The rows of the matrix below `M` have strings, the first perhaps not. -/
def Rows (m : Matrix) (M : ℕ) : Prop := ∀ k, (m.str k).length < 127 ∧ (1 ≤ k → (m.str k ≠ [] ↔ k < M))

theorem Rows.parse {M : ℕ} (h : Rows m M) (line : Name) : Rows (Args.parse m line).1 (max M (rowsUsed line)) := by
  intro k
  rw [str_parse]
  split_ifs with hk hk0
  · have hlt : k < (fitting line.val).length := lt_of_lt_of_le hk (Nat.min_le_right _ _)
    obtain ⟨hne, -, hlen⟩ := mem_fitting (getElem_mem hlt)
    rw [getElem?_eq_getElem hlt, Option.getD_some]
    exact ⟨hlen, fun _ => ⟨fun _ => lt_max_of_lt_right hk, fun _ => hne⟩⟩
  · exact ⟨by decide, fun h1 => absurd h1 (by omega)⟩
  · refine ⟨(h k).1, fun h1 => ?_⟩
    rw [(h k).2 h1, lt_max_iff, or_iff_left hk]

theorem pushed_command (g : Shared) (st : Start) : (pushed g st).1.command = (parse g.command st.line).1 := by
  unfold pushed
  split_ifs <;> rfl

theorem startProcess_eq_some {g : Shared} {st : Start} {r : Shared × Option Stack} :
    startProcess g st = some r ↔ st.Fits ∧ pushed g st = r := by
  unfold startProcess
  split_ifs with h <;> simp [h]

/-- The largest number of rows that one of the command lines was put in. -/
def used (history : List Start) : ℕ := history.foldl (fun M st => max M (rowsUsed st.line)) 0

theorem after_spec {history : List Start} {g : Shared} (h : after history = some g) :
    (∀ st ∈ history, st.Fits) ∧ Rows g.command (used history) := by
  have hfold : ∀ (l : List Start) (g g' : Shared) (M : ℕ), Rows g.command M →
      l.foldlM (fun g st => (startProcess g st).map Prod.fst) g = some g' →
      (∀ st ∈ l, st.Fits) ∧ Rows g'.command (l.foldl (fun M st => max M (rowsUsed st.line)) M) := by
    intro l
    induction l with
    | nil =>
      rintro g g' M hrows ⟨⟩
      exact ⟨nofun, hrows⟩
    | cons st l ih =>
      intro g g' M hrows hrun
      obtain ⟨_, hstart, hrun⟩ := Option.bind_eq_some_iff.1 hrun
      obtain ⟨r, hr, rfl⟩ := Option.map_eq_some_iff.1 hstart
      obtain ⟨hfits, rfl⟩ := startProcess_eq_some.1 hr
      have hrows' := hrows.parse st.line
      rw [← pushed_command] at hrows'
      obtain ⟨hall, hlast⟩ := ih _ _ _ hrows' hrun
      exact ⟨forall_mem_cons.2 ⟨hfits, hall⟩, hlast⟩
  refine hfold history _ g 0 (fun k => ?_) h
  have hnil : Shared.boot.command.str k = [] := (str_eq_nil _ k).2 rfl
  rw [hnil]
  exact ⟨by decide, fun _ => ⟨fun h => absurd rfl h, fun h => absurd h (Nat.not_lt_zero k)⟩⟩

theorem after_of_fits {history : List Start} (h : ∀ st ∈ history, st.Fits) : ∃ g, after history = some g := by
  have hfold : ∀ (l : List Start) (g : Shared), (∀ st ∈ l, st.Fits) →
      ∃ g', l.foldlM (fun g st => (startProcess g st).map Prod.fst) g = some g' := by
    intro l
    induction l with
    | nil => exact fun g _ => ⟨g, rfl⟩
    | cons st l ih =>
      intro g hl
      obtain ⟨hst, hl⟩ := forall_mem_cons.1 hl
      obtain ⟨g', hg'⟩ := ih (pushed g st).1 hl
      refine ⟨g', ?_⟩
      rw [foldlM_cons, startProcess_eq_some.2 ⟨hst, rfl⟩]
      exact hg'
  exact hfold history _ h

theorem used_le_iff (history : List Start) : used history ≤ n ↔ ∀ st ∈ history, rowsUsed st.line ≤ n := by
  have hfold : ∀ (l : List Start) (M : ℕ), l.foldl (fun M st => max M (rowsUsed st.line)) M ≤ n ↔
      M ≤ n ∧ ∀ st ∈ l, rowsUsed st.line ≤ n := by
    intro l
    induction l with
    | nil => simp
    | cons st l ih =>
      intro M
      rw [foldl_cons, ih, max_le_iff, forall_mem_cons, and_assoc]
  rw [used, hfold]
  exact and_iff_right (Nat.zero_le n)

/-! ## Arguments -/

theorem Stack.Holds.unique {str str' : List UInt8} {a : ℕ} (h : s.Holds a str) (h' : s.Holds a str') (hz : (0 : UInt8) ∉ str)
    (hz' : (0 : UInt8) ∉ str') : str = str' := by
  have hcstr : ∀ {l : List UInt8}, s.Holds a l → (0 : UInt8) ∉ l → ∀ k, cstr (slice s.mem a (l.length + 1 + k)) = l := by
    intro l hl hz k
    rw [slice_add, hl.2.2, append_assoc, singleton_append, cstr_append_zero hz]
  rw [← hcstr h hz (str'.length + 1), Nat.add_comm, hcstr h' hz']

theorem Start.fitting_pos (st : Start) (h : st.success = true) : 0 < (fitting st.line.val).length := by
  obtain ⟨fs, fs', f, hfs, hopen⟩ := st.opens h
  obtain ⟨hne, hlen⟩ := hfs.open_name hopen
  have hfit : (st.line.val.takeWhile (· != 32)).length < 127 := lt_of_le_of_lt hlen (by decide)
  rw [fitting, tokens_takeWhile hne, filter_cons_of_pos (by simpa using hfit)]
  exact Nat.succ_pos _

theorem pushed_built {history : List Start} {g : Shared} (hg : after history = some g) {st : Start}
    (hs : st.success = true) : ∃ s, (pushed g st).2 = some s ∧
      Built (parse g.command st.line).1 st.behind (max (used history) (rowsUsed st.line)) s := by
  have hpos := st.fitting_pos hs
  have hused : used history ≤ 30 := (used_le_iff history).2 fun _ _ => Nat.min_le_left _ _
  have hn : rowsUsed st.line = min 30 (fitting st.line.val).length := rfl
  have hrows := (after_spec hg).2.parse st.line
  set m := (parse g.command st.line).1 with hm
  have hrow0 : m.str 0 ≠ [] := by
    rw [hm, str_parse, if_pos (by omega), getElem?_eq_getElem hpos]
    exact (mem_fitting (getElem_mem hpos)).1
  unfold pushed
  rw [if_pos hs]
  refine ⟨_, rfl, pushArgs_built (by omega) (fun k _ => (hrows k).1) fun k _ => ?_⟩
  rcases Nat.eq_zero_or_pos k with rfl | hk
  · exact ⟨fun _ => by omega, fun _ => hrow0⟩
  · exact (hrows k).2 hk

section
variable {history : List Start} {st : Start} {g : Shared}

theorem Built.argsOk (hb : Built (parse g.command st.line).1 st.behind (max (used history) (rowsUsed st.line)) s)
    (hg : after history = some g) (hfits : st.Fits) (hs : st.success = true) (h : StackOk s (tokens st.line.val)) : ArgsOk history st := by
  have hpos := st.fitting_pos hs
  have hsub : (fitting st.line.val).length ≤ (tokens st.line.val).length := (filter_sublist).length_le
  have hused : used history ≤ 30 := (used_le_iff history).2 fun _ _ => Nat.min_le_left _ _
  have hn : rowsUsed st.line = min 30 (fitting st.line.val).length := rfl
  set N := max (used history) (rowsUsed st.line) with hN
  have hcount : (tokens st.line.val).length = if N < 30 ∨ st.behind = 0 then N else 0 := h.argc.symm.trans hb.argc
  have hlast : N < 30 ∨ st.behind = 0 := by
    by_contra hno
    rw [if_neg hno] at hcount
    omega
  rw [if_pos hlast] at hcount
  obtain ⟨-, -, -, hheld, -⟩ := hb.argv hlast (by omega)
  -- the token and the string of the row are at the address that `argv` has
  have hlen : ∀ t ∈ tokens st.line.val, t.length ≤ 126 := by
    intro t ht
    obtain ⟨k, hk, rfl⟩ := getElem_of_mem ht
    have hzero : (0 : UInt8) ∉ (tokens st.line.val)[k] := fun h0 =>
      st.line.property ((mem_tokens (getElem_mem hk)).2 h0)
    rw [(h.argv k _ (getElem?_eq_getElem hk)).unique (hheld k (hcount ▸ hk)) hzero (zero_notMem_str _ k)]
    exact Nat.le_of_lt_succ ((after_spec hg).2.parse st.line k).1
  refine ⟨hfits, hlen, by omega, fun h30 => hlast.resolve_left (by omega), fun st' hst' => ?_⟩
  exact ((used_le_iff history).1 le_rfl st' hst').trans (by omega)

theorem ArgsOk.stackOk (h : ArgsOk history st) (hs : st.success = true)
    (hb : Built (parse g.command st.line).1 st.behind (max (used history) (rowsUsed st.line)) s) :
    StackOk s (tokens st.line.val) := by
  have hpos := st.fitting_pos hs
  have hfit : fitting st.line.val = tokens st.line.val := filter_eq_self.2 fun t ht => by
    simpa using Nat.lt_succ_of_le (h.length_le t ht)
  have hn : rowsUsed st.line = (tokens st.line.val).length := by
    rw [rowsUsed, hfit]
    exact Nat.min_eq_right h.count_le
  have hN : max (used history) (rowsUsed st.line) = (tokens st.line.val).length := by
    rw [hn]
    exact max_eq_right ((used_le_iff history).2 h.history)
  rw [hN] at hb
  rw [hfit] at hpos
  have hlast : (tokens st.line.val).length < 30 ∨ st.behind = 0 :=
    (Nat.lt_or_ge _ 30).imp id fun hge => h.behind (le_antisymm h.count_le hge)
  obtain ⟨h1, h2, h3, h4, h5⟩ := hb.argv hlast hpos
  refine ⟨h1, hb.argc.trans (if_pos hlast), ⟨h2, h3⟩, fun k arg harg => ?_, h5⟩
  obtain ⟨hk, rfl⟩ := List.getElem?_eq_some_iff.1 harg
  have hstr : (parse g.command st.line).1.str k = (tokens st.line.val)[k] := by
    rw [str_parse, if_pos (hn ▸ hk), hfit, getElem?_eq_getElem hk, Option.getD_some]
  exact hstr ▸ h4 k hk

end

/-- **Arguments.**  Whatever was started before, a process that is started gets the tokens of its
    command line exactly if the line fits in the kernel stack, there are at most thirty tokens, of at most 126
    characters, no earlier command line took more rows, and the byte behind the matrix is zero if all rows are taken. -/
theorem stack_ok_iff (history : List Start) (st : Start) :
    ArgsPassed history st ↔ (st.success = true → (∀ st' ∈ history, st'.Fits) → ArgsOk history st) := by
  constructor
  · intro h hs hall
    obtain ⟨g, hg⟩ := after_of_fits hall
    obtain ⟨r, hr, hok⟩ := h hs g hg
    obtain ⟨hfits, rfl⟩ := startProcess_eq_some.1 hr
    obtain ⟨s, hstart, hb⟩ := pushed_built hg hs
    exact hb.argsOk hg hfits hs (hok s hstart)
  · intro h hs g hg
    have hargs := h hs (after_spec hg).1
    obtain ⟨s, hstart, hb⟩ := pushed_built hg hs
    refine ⟨_, startProcess_eq_some.2 ⟨hargs.fits, rfl⟩, fun s' hs' => ?_⟩
    cases hstart.symm.trans hs'
    exact hargs.stackOk hs hb

/-! ## Arguments that are not passed -/

theorem open_nameA : ∃ fs' f, (filesysOpen Files.nameA).run Files.twoFiles = .ok (some f, fs') := by
  have hrun : ((filesysOpen Files.nameA).run Files.twoFiles).toOption.map Prod.fst = some (some 2) := by decide +kernel
  cases h : (filesysOpen Files.nameA).run Files.twoFiles with
  | error e => rw [h] at hrun; cases hrun
  | ok r =>
    obtain ⟨f, fs'⟩ := r
    rw [h] at hrun
    cases hrun
    exact ⟨fs', 2, rfl⟩

/-- A start of the program `a`. -/
def startA (line : Name) (h : programName line = Files.nameA) : Start where
  line := line
  success := true
  behind := 0
  room := 3500
  opens _ := by
    obtain ⟨fs', f, hopen⟩ := open_nameA
    rw [h]
    exact ⟨Files.twoFiles, fs', f, Files.twoFiles_formatted, hopen⟩

/-- `argc` on the stack of a start. -/
def argc (history : List Start) (st : Start) : Option ℕ := do
  let g ← after history
  let r ← startProcess g st
  let s ← r.2
  return word s.mem (s.sp + 4)

theorem not_passed {history : List Start} {st : Start} (hs : st.success = true) (h : argc history st = some n)
    (hne : n ≠ (tokens st.line.val).length) : ¬ ArgsPassed history st := by
  intro hp
  obtain ⟨g, hg, h⟩ := Option.bind_eq_some_iff.1 h
  obtain ⟨r, hr, h⟩ := Option.bind_eq_some_iff.1 h
  obtain ⟨s, hstack, hn⟩ := Option.bind_eq_some_iff.1 h
  obtain ⟨_, hr', hok⟩ := hp hs g hg
  cases hr.symm.trans hr'
  exact hne ((Option.some.inj hn).symm.trans (hok s hstack).argc)

/-- The program `a` without arguments, with one that has 127 characters, and with thirty. -/
def alone : Start := startA Files.nameA (by decide)

def withLong : Start := startA ⟨[97, 32] ++ List.replicate 127 120, by decide⟩ (by decide)

def withMany : Start := startA ⟨[97] ++ (List.replicate 30 [32, 120]).flatten, by decide⟩ (by decide)

/-- The name of the program and some spaces. -/
def padded (spaces : ℕ) : Start :=
  startA ⟨97 :: List.replicate spaces 32, by simp⟩ (Subtype.ext (by simp [programName, Files.nameA]))

theorem length_padded (spaces : ℕ) : (padded spaces).line.val.length = spaces + 1 := congrArg Nat.succ length_replicate

/-- Alone after a start with an argument, the program gets two arguments; an argument of 127
    characters and a thirtieth argument are lost; with 4000 spaces behind the name the kernel panics. -/
theorem arguments_not_passed :
    argc [startA ⟨[97, 32, 98], by decide⟩ (by decide)] alone = some 2 ∧
      ¬ ArgsPassed [startA ⟨[97, 32, 98], by decide⟩ (by decide)] alone ∧
    argc [] withLong = some 1 ∧ ¬ ArgsPassed [] withLong ∧
    argc [] withMany = some 30 ∧ ¬ ArgsPassed [] withMany ∧
    (padded 4000).line.val.length < pgSize ∧ (∀ g, startProcess g (padded 4000) = none) ∧ ¬ ArgsPassed [] (padded 4000) := by
  have h1 : argc [startA ⟨[97, 32, 98], by decide⟩ (by decide)] alone = some 2 := by decide +kernel
  have h2 : argc [] withLong = some 1 := by decide +kernel
  have h3 : argc [] withMany = some 30 := by decide +kernel
  have hlen := length_padded 4000
  have h4 : ∀ g, startProcess g (padded 4000) = none := fun g => if_neg (by rw [Start.Fits, hlen]; decide)
  refine ⟨h1, not_passed rfl h1 (by decide +kernel), h2, not_passed rfl h2 (by decide +kernel), h3,
    not_passed rfl h3 (by decide +kernel), by rw [hlen]; decide, h4, fun hp => ?_⟩
  obtain ⟨r, hr, -⟩ := hp rfl _ rfl
  cases (h4 _).symm.trans hr

end Pintos.Args
