/-
  `syscall_handler` and `syscall_execute` (userprog/syscall.c).

  The handler is modelled by the actions it performs: the words it loads from the user stack, the status
  that `process_invalid_exit` records, the ways in which it ends the process, and the system call it makes
  with its arguments.
-/
import Pintos.Lib.Act
import Pintos.UserMemory

namespace Pintos

open Lib List

/-- The system calls with their numbers in lib/syscall-nr.h, in order. -/
inductive Call where
  | halt | exit | exec | wait | create | remove | open | filesize | read | write | seek | tell | close
  deriving DecidableEq, Repr

inductive Action where
  /-- the word at `a` is loaded -/
  | load (a : ℕ)
  /-- `process_invalid_exit` stores `status` into the record of the process -/
  | record (status : ℤ)
  /-- `thread_exit ()` -/
  | threadExit
  /-- `exit (status)` because of an argument -/
  | exit (status : ℤ)
  /-- the system call -/
  | call (c : Call) (args : List ℕ)
  deriving DecidableEq, Repr

inductive ArgKind where
  | integer | pointer
  deriving DecidableEq, Repr

section
variable (S : Space) (eax : ℕ)

/-- Load the word at `a`.  A load that faults is repeated for ever, as `page_fault` returns. -/
def deref (a : ℕ) : Act Action ℕ :=
  match S.loadWord (addr a) with
  | some w => ⟨[.load (addr a)], some w⟩
  | none => ⟨[.load (addr a)], none⟩

/-- `process_invalid_exit`, which returns. -/
def invalidExit : Act Action Unit := Act.act (.record (-1))

/-- `get_arg_integer`; without a return statement its value is what `eax` holds. -/
def getArgInteger (index stackP : ℕ) : Act Action ℕ :=
  if index ≤ 2 ∧ stackP ≠ 0 then deref S (stackP + 4 * index) else pure eax

def getArgPointer (index stackP : ℕ) : Act Action ℕ :=
  if index ≤ 2 ∧ stackP ≠ 0 then do
    let userPointer ← deref S (stackP + index * 4)
    if checkUserPointer S.pd userPointer then pure userPointer
    else do
      Act.act (.exit (-1))
      Act.stop
  else pure 0

def getArg (kind : ArgKind) (index stackP : ℕ) : Act Action ℕ :=
  match kind with
  | .integer => getArgInteger S eax index stackP
  | .pointer => getArgPointer S index stackP

/-- The arguments of the given kinds, from index `i` on. -/
def getArgs (stackP : ℕ) : ℕ → List ArgKind → Act Action (List ℕ)
  | _, [] => pure []
  | i, kind :: kinds => do
    let v ← getArg S eax kind i stackP
    let vs ← getArgs stackP (i + 1) kinds
    pure (v :: vs)

/-- A case of `syscall_execute`: check `argNumber` words, get the arguments and make the call;
    with `guarded`, only if the first argument is not a null pointer. -/
def syscallCase (c : Call) (argNumber : ℕ) (kinds : List ArgKind) (guarded : Bool) (stackP : ℕ) :
    Act Action Unit := do
  if isInvalidPt S.pd stackP argNumber then invalidExit
  let args ← getArgs S eax stackP 0 kinds
  if guarded ∧ args.head? = some 0 then pure () else Act.act (.call c args)

def syscallExecute (number stackP : ℕ) : Act Action Unit :=
  match number with
  | 0 => Act.act (.call .halt [])
  | 1 => syscallCase S eax .exit 1 [.integer] false stackP
  | 2 => syscallCase S eax .exec 1 [.pointer] true stackP
  | 3 => syscallCase S eax .wait 1 [.integer] false stackP
  | 4 => syscallCase S eax .create 2 [.pointer, .integer] true stackP
  | 5 => syscallCase S eax .remove 1 [.pointer] true stackP
  | 6 => syscallCase S eax .open 1 [.pointer] true stackP
  | 7 => syscallCase S eax .filesize 1 [.integer] false stackP
  | 8 => syscallCase S eax .read 3 [.integer, .pointer, .integer] false stackP
  | 9 => syscallCase S eax .write 3 [.integer, .pointer, .integer] false stackP
  | 10 => syscallCase S eax .seek 2 [.integer, .integer] false stackP
  | 11 => syscallCase S eax .tell 1 [.integer] false stackP
  | 12 => syscallCase S eax .close 1 [.integer] false stackP
  | _ => do
    Act.act .threadExit
    Act.stop

/-- `syscall_handler`, called with the stack pointer `esp` of the user program. -/
def syscallHandler (esp : ℕ) : Act Action Unit :=
  if esp ≠ 0 then do
    if isInvalidPt S.pd esp 1 then invalidExit
    let number ← deref S esp
    syscallExecute S eax number (addr (esp + 4))
  else do
    Act.act .threadExit
    Act.stop

end

/-! ## What the handler has to do -/

def Call.ofNumber : ℕ → Option Call
  | 0 => some .halt
  | 1 => some .exit
  | 2 => some .exec
  | 3 => some .wait
  | 4 => some .create
  | 5 => some .remove
  | 6 => some .open
  | 7 => some .filesize
  | 8 => some .read
  | 9 => some .write
  | 10 => some .seek
  | 11 => some .tell
  | 12 => some .close
  | _ => none

/-- The arguments that the call takes. -/
def Call.kinds : Call → List ArgKind
  | .halt => []
  | .exit | .wait | .filesize | .tell | .close => [.integer]
  | .exec | .remove | .open => [.pointer]
  | .create => [.pointer, .integer]
  | .read | .write => [.integer, .pointer, .integer]
  | .seek => [.integer, .integer]

/-- The calls made only with a pointer that is not null. -/
def Call.guarded : Call → Bool
  | .exec | .create | .remove | .open => true
  | _ => false

def Action.isLoad : Action → Bool
  | .load _ => true
  | _ => false

/-- What the handler does besides loading words. -/
def effects (tr : List Action) : List Action := tr.filter fun e => !e.isLoad

/-- Only valid words are loaded. -/
def LoadsValid (pd : PageDir) (tr : List Action) : Prop := ∀ a, .load a ∈ tr → WordValid pd a

/-- The process is ended with −1 recorded, without a call and without loading an invalid word. -/
def Terminated (pd : PageDir) (tr : List Action) : Prop :=
  LoadsValid pd tr ∧ (effects tr = [.record (-1), .threadExit] ∨ effects tr = [.record (-1), .exit (-1)] ∨
    effects tr = [.exit (-1)])

/-- The pointers among the arguments pass `check_user_pointer`. -/
def PointersOk (pd : PageDir) (kinds : List ArgKind) (args : List ℕ) : Prop :=
  ∀ x ∈ kinds.zip args, x.1 = .pointer → checkUserPointer pd x.2 = true

/-- The call is made with the words behind the number as its arguments, or `exit (-1)` if one
    of them is a pointer that does not pass `check_user_pointer`. -/
def Dispatched (S : Space) (esp : ℕ) (c : Call) (tr : List Action) : Prop :=
  LoadsValid S.pd tr ∧ ∃ args : List ℕ, args.length = c.kinds.length ∧
    (∀ i < c.kinds.length, args[i]? = S.loadWord (esp + 4 + 4 * i)) ∧
    (PointersOk S.pd c.kinds args → effects tr = [.call c args]) ∧
    (¬ PointersOk S.pd c.kinds args → effects tr = [.exit (-1)])

/-- All words of the call are valid. -/
def ArgsValid (S : Space) (esp : ℕ) (c : Call) : Prop :=
  ∀ i < c.kinds.length, WordValid S.pd (esp + 4 + 4 * i)

/-- What `syscall_handler` has to do, by its actions `tr`.  A number that no call has demands
    nothing. -/
def HandlerOk (S : Space) (esp : ℕ) (tr : List Action) : Prop :=
  (¬ WordValid S.pd esp → Terminated S.pd tr) ∧
  (WordValid S.pd esp → ∀ n c, S.loadWord esp = some n → Call.ofNumber n = some c →
    (¬ ArgsValid S esp c → Terminated S.pd tr) ∧ (ArgsValid S esp c → Dispatched S esp c tr))

/-- One of the arguments is a pointer that does not pass `check_user_pointer`, and the words up
    to it are valid. -/
def BadArg (S : Space) (esp : ℕ) (c : Call) : Prop :=
  ∃ j, c.kinds[j]? = some .pointer ∧ (∀ k ≤ j, WordValid S.pd (esp + 4 + 4 * k)) ∧
    ∃ w, S.loadWord (esp + 4 + 4 * j) = some w ∧ checkUserPointer S.pd w = false

/-! ## Getting the arguments -/

/-- Among the arguments from index `i` on there is a pointer that does not pass
    `check_user_pointer`, and the words up to it are valid. -/
def BadPointer (S : Space) (stackP i : ℕ) (kinds : List ArgKind) : Prop :=
  ∃ j, kinds[j]? = some .pointer ∧ (∀ k ≤ j, WordValid S.pd (stackP + 4 * (i + k))) ∧
    ∃ w, S.loadWord (stackP + 4 * (i + j)) = some w ∧ checkUserPointer S.pd w = false

variable {S : Space} {eax stackP i : ℕ} {kinds : List ArgKind}

theorem effects_append (tr tr' : List Action) : effects (tr ++ tr') = effects tr ++ effects tr' :=
  filter_append ..

variable {pd : PageDir}

theorem LoadsValid.append {tr tr' : List Action} (h : LoadsValid pd tr)
    (h' : LoadsValid pd tr') : LoadsValid pd (tr ++ tr') :=
  fun a ha => (mem_append.1 ha).elim (h a) (h' a)

theorem deref_eq (S : Space) (a : ℕ) : deref S a = ⟨[.load (addr a)], S.loadWord a⟩ := by
  rw [deref, S.loadWord_addr]
  cases S.loadWord a <;> rfl

theorem getArg_load (S : Space) (eax : ℕ) (hs : stackP ≠ 0) (hi : i ≤ 2) (kind : ArgKind) :
    .load (addr (stackP + 4 * i)) ∈ (getArg S eax kind i stackP).trace := by
  have hd := deref_eq S (stackP + 4 * i)
  cases kind with
  | integer => simp [getArg, getArgInteger, hi, hs, hd]
  | pointer =>
    simp only [getArg, getArgPointer, hi, hs, ne_eq, not_false_eq_true, and_self, if_true, Nat.mul_comm i 4]
    cases hw : S.loadWord (stackP + 4 * i) with
    | none => rw [Act.bind_none (by rw [hd, hw]), hd]; simp
    | some w => rw [Act.bind_some (by rw [hd, hw]), hd]; simp

theorem getArg_valid (hs : stackP ≠ 0) (hi : i ≤ 2) (kind : ArgKind) {w : ℕ}
    (hw : S.loadWord (stackP + 4 * i) = some w) :
    getArg S eax kind i stackP =
      if kind = .pointer ∧ checkUserPointer S.pd w = false
      then ⟨[.load (addr (stackP + 4 * i)), .exit (-1)], none⟩
      else ⟨[.load (addr (stackP + 4 * i))], some w⟩ := by
  have hd : deref S (stackP + 4 * i) = ⟨[.load (addr (stackP + 4 * i))], some w⟩ := by rw [deref_eq, hw]
  cases kind with
  | integer => simp [getArg, getArgInteger, hi, hs, hd]
  | pointer =>
    simp only [getArg, getArgPointer, hi, hs, ne_eq, not_false_eq_true, and_self, if_true, Nat.mul_comm i 4, true_and]
    rw [hd, Act.bind_some rfl]
    cases hc : checkUserPointer S.pd w
    · rfl
    · rfl

/-- What getting the arguments leads to. -/
inductive Fetched (S : Space) (stackP i : ℕ) (kinds : List ArgKind) (r : Act Action (List ℕ)) : Prop
  | all (args : List ℕ) : r.value = some args → args.length = kinds.length →
      (∀ j < kinds.length, args[j]? = S.loadWord (stackP + 4 * (i + j))) →
      (∀ j < kinds.length, WordValid S.pd (stackP + 4 * (i + j))) → PointersOk S.pd kinds args →
      LoadsValid S.pd r.trace → effects r.trace = [] → Fetched S stackP i kinds r
  | bad : BadPointer S stackP i kinds → r.value = none → LoadsValid S.pd r.trace →
      effects r.trace = [.exit (-1)] → Fetched S stackP i kinds r
  | invalid : ¬ LoadsValid S.pd r.trace → ¬ (∀ j < kinds.length, WordValid S.pd (stackP + 4 * (i + j))) →
      ¬ BadPointer S stackP i kinds → Fetched S stackP i kinds r

theorem getArgs_fetched (S : Space) (eax : ℕ) (hs : stackP ≠ 0) (hi : i + kinds.length ≤ 3) :
    Fetched S stackP i kinds (getArgs S eax stackP i kinds) := by
  induction kinds generalizing i with
  | nil =>
    exact .all [] rfl rfl (by simp) (by simp) (by simp [PointersOk]) (by intro a ha; cases ha) rfl
  | cons kind kinds ih =>
    rw [length_cons] at hi
    have hi2 : i ≤ 2 := by omega
    rw [getArgs]
    by_cases hv : WordValid S.pd (stackP + 4 * i)
    · obtain ⟨w, hw⟩ := Space.loadWord_of_valid hv
      rw [getArg_valid hs hi2 kind hw]
      split_ifs with hc
      · -- the pointer is bad
        rw [Act.bind_none rfl]
        refine .bad ⟨0, by rw [hc.1]; rfl, fun k hk => ?_, w, hw, hc.2⟩ rfl (fun a ha => ?_) rfl
        · obtain rfl : k = 0 := by omega
          exact hv
        · obtain rfl : a = addr (stackP + 4 * i) := by simpa using ha
          simpa using hv
      · rw [Act.bind_some rfl]
        have hload : LoadsValid S.pd [.load (addr (stackP + 4 * i))] := by
          intro a ha
          obtain rfl : a = addr (stackP + 4 * i) := by simpa using ha
          simpa using hv
        have hsucc : ∀ j, stackP + 4 * (i + (j + 1)) = stackP + 4 * (i + 1 + j) := by intro j; omega
        cases ih (i := i + 1) (by omega) with
        | all args hval hlen hargs hwords hptr hloads heff =>
          rw [Act.bind_some hval]
          refine .all (w :: args) rfl (by rw [length_cons, hlen, length_cons]) ?_ ?_ ?_ ?_ ?_
          · intro j hj
            cases j with
            | zero => rw [getElem?_cons_zero]; exact hw.symm
            | succ j =>
              rw [length_cons] at hj
              rw [getElem?_cons_succ, hsucc]; exact hargs j (by omega)
          · intro j hj
            cases j with
            | zero => exact hv
            | succ j => rw [length_cons] at hj; rw [hsucc]; exact hwords j (by omega)
          · intro x hx hk
            rw [zip_cons_cons, mem_cons] at hx
            rcases hx with rfl | hx
            · push Not at hc; simpa using hc hk
            · exact hptr x hx hk
          · simpa using hload.append hloads
          · simpa [effects_append, effects, Action.isLoad] using heff
        | bad hbad hval hloads heff =>
          rw [Act.bind_none hval]
          obtain ⟨j, hj, hjv, hjw⟩ := hbad
          refine .bad ⟨j + 1, by rwa [getElem?_cons_succ], fun k hk => ?_, by rwa [hsucc]⟩
            rfl (hload.append hloads) (by simpa [effects_append, effects, Action.isLoad] using heff)
          cases k with
          | zero => exact hv
          | succ k => rw [hsucc]; exact hjv k (by omega)
        | invalid hloads hwords hbad =>
          refine .invalid (fun h => hloads fun a ha => h a ?_) (fun h => hwords fun j hj => ?_) ?_
          · cases hval : (getArgs S eax stackP (i + 1) kinds).value with
            | none => rw [Act.bind_none hval]; exact mem_append_right _ ha
            | some vs =>
              rw [Act.bind_some hval]
              exact mem_append_right _ (mem_append_left _ ha)
          · rw [← hsucc]; exact h (j + 1) (by rw [length_cons]; omega)
          · rintro ⟨j, hj, hjv, hjw⟩
            cases j with
            | zero =>
              obtain ⟨w', hw', hcw⟩ := hjw
              cases hw.symm.trans hw'
              exact hc ⟨by simpa using hj, hcw⟩
            | succ j =>
              refine hbad ⟨j, hj, fun k hk => ?_, by rwa [← hsucc]⟩
              rw [← hsucc]; exact hjv (k + 1) (by omega)
    · -- the word is loaded although it is invalid
      refine .invalid (fun h => hv ?_) (fun h => hv (h 0 (by simp))) ?_
      · have hmem := getArg_load S eax hs hi2 kind
        have : .load (addr (stackP + 4 * i)) ∈ (getArg S eax kind i stackP >>= fun v =>
            getArgs S eax stackP (i + 1) kinds >>= fun vs => pure (v :: vs)).trace := by
          cases hval : (getArg S eax kind i stackP).value with
          | none => rwa [Act.bind_none hval]
          | some v => rw [Act.bind_some hval]; exact mem_append_left _ hmem
        simpa using h _ this
      · rintro ⟨j, -, hjv, -⟩
        exact hv (hjv 0 (by omega))

/-! ## The handler -/

theorem syscallExecute_eq (S : Space) (eax : ℕ) (hs : stackP ≠ 0) : ∀ n, syscallExecute S eax n stackP =
    match Call.ofNumber n with
    | some c => syscallCase S eax c c.kinds.length c.kinds c.guarded stackP
    | none => do
      Act.act .threadExit
      Act.stop
  | 0 => by simp [syscallExecute, Call.ofNumber, syscallCase, Call.kinds, Call.guarded, getArgs, isInvalidPt, hs,
      isInvalidFrom]; rfl
  | 1 | 2 | 3 | 4 | 5 | 6 | 7 | 8 | 9 | 10 | 11 | 12 => rfl
  | _ + 13 => rfl

theorem syscallCase_trace (S : Space) (eax stackP : ℕ) (c : Call) :
    (syscallCase S eax c c.kinds.length c.kinds c.guarded stackP).trace =
      (if isInvalidPt S.pd stackP c.kinds.length then [.record (-1)] else []) ++
      ((getArgs S eax stackP 0 c.kinds).trace ++
        match (getArgs S eax stackP 0 c.kinds).value with
        | some args => if c.guarded ∧ args.head? = some 0 then [] else [.call c args]
        | none => []) := by
  have hget : (getArgs S eax stackP 0 c.kinds >>= fun args =>
      if c.guarded ∧ args.head? = some 0 then pure () else Act.act (.call c args)).trace =
      (getArgs S eax stackP 0 c.kinds).trace ++
        match (getArgs S eax stackP 0 c.kinds).value with
        | some args => if c.guarded ∧ args.head? = some 0 then [] else [.call c args]
        | none => [] := by
    cases hval : (getArgs S eax stackP 0 c.kinds).value with
    | none => rw [Act.bind_none hval, append_nil]
    | some args =>
      rw [Act.bind_some hval]
      dsimp only
      split_ifs <;> rfl
  unfold syscallCase
  split_ifs with h
  · rw [← hget]; rfl
  · rw [← hget]; rfl

theorem syscallHandler_load {esp : ℕ} (h : esp ≠ 0) :
    .load (addr esp) ∈ (syscallHandler S eax esp).trace := by
  have hd : .load (addr esp) ∈ (deref S esp >>= fun number =>
      syscallExecute S eax number (addr (esp + 4))).trace := by
    rw [deref_eq]
    cases hn : S.loadWord esp with
    | none => exact mem_cons_self
    | some n => exact mem_cons_self
  rw [syscallHandler, if_pos h]
  split_ifs
  · exact mem_cons_of_mem _ hd
  · exact hd

theorem syscallHandler_zero : effects (syscallHandler S eax 0).trace = [.threadExit] := rfl

theorem stack_ne_zero {esp : ℕ} (hv : WordValid S.pd esp) : addr (esp + 4) ≠ 0 := by
  have := (hv 0 (by omega)).1
  simp only [addr, physBase] at this ⊢; omega

theorem syscallHandler_valid {esp n : ℕ} {c : Call} (h : esp ≠ 0) (hv : WordValid S.pd esp)
    (hn : S.loadWord esp = some n) (hc : Call.ofNumber n = some c) :
    (syscallHandler S eax esp).trace = .load (addr esp) ::
      (syscallCase S eax c c.kinds.length c.kinds c.guarded (addr (esp + 4))).trace := by
  have hs := stack_ne_zero hv
  have hi : isInvalidPt S.pd esp 1 = false :=
    isInvalidPt_words.2 ⟨h, fun i hi => by rwa [Nat.lt_one_iff.1 hi]⟩
  rw [syscallHandler, if_pos h, hi, deref_eq, hn]
  change .load (addr esp) :: (syscallExecute S eax n (addr (esp + 4))).trace = _
  rw [syscallExecute_eq S eax hs n, hc]

theorem addr_arg (esp k : ℕ) : addr (addr (esp + 4) + 4 * (0 + k)) = addr (esp + 4 + 4 * k) := by
  rw [addr_addr_add, Nat.zero_add]

theorem argsValid_iff {esp : ℕ} {c : Call} : ArgsValid S esp c ↔
    ∀ j < c.kinds.length, WordValid S.pd (addr (esp + 4) + 4 * (0 + j)) := by
  simp only [ArgsValid, wordValid_congr (addr_arg esp _)]

theorem badArg_iff {esp : ℕ} {c : Call} : BadArg S esp c ↔ BadPointer S (addr (esp + 4)) 0 c.kinds := by
  simp only [BadArg, BadPointer, wordValid_congr (addr_arg esp _), S.loadWord_congr (addr_arg esp _)]

theorem loadsValid_cons {esp : ℕ} {tr : List Action} (hv : WordValid pd esp) :
    LoadsValid pd (.load (addr esp) :: tr) ↔ LoadsValid pd tr := by
  refine ⟨fun h a ha => h a (mem_cons_of_mem _ ha), fun h a ha => ?_⟩
  rcases mem_cons.1 ha with ha | ha
  · obtain rfl : a = addr esp := by simpa using ha
    exact wordValid_addr.2 hv
  · exact h a ha

theorem effects_load (a : ℕ) (tr : List Action) : effects (.load a :: tr) = effects tr := rfl

/-- A pointer that passes its check is not null, so that the guard of the call holds. -/
theorem guard_of_pointersOk {c : Call} {args : List ℕ}
    (h : PointersOk pd c.kinds args) : ¬ (c.guarded = true ∧ args.head? = some 0) := by
  rintro ⟨hg, h0⟩
  obtain ⟨ks, hk⟩ : ∃ ks, c.kinds = .pointer :: ks := by
    cases c <;> simp [Call.guarded, Call.kinds] at hg ⊢
  cases args with
  | nil => cases h0
  | cons a args =>
    rw [head?_cons, Option.some.injEq] at h0
    have := h (.pointer, a) (by rw [hk]; exact mem_cons_self) rfl
    rw [h0] at this
    simp [checkUserPointer] at this

section
variable {esp : ℕ} {c : Call}

theorem exists_args (hargs : ArgsValid S esp c) : ∃ args : List ℕ, args.length = c.kinds.length ∧
    ∀ i < c.kinds.length, args[i]? = S.loadWord (esp + 4 + 4 * i) := by
  refine ⟨(range c.kinds.length).map fun i => (S.loadWord (esp + 4 + 4 * i)).getD 0, by simp, ?_⟩
  intro i hi
  obtain ⟨w, hw⟩ := Space.loadWord_of_valid (hargs i hi)
  simp [hi, hw]

theorem not_pointersOk_of_badArg {args : List ℕ} (hb : BadArg S esp c)
    (hargs : ∀ i < c.kinds.length, args[i]? = S.loadWord (esp + 4 + 4 * i)) :
    ¬ PointersOk S.pd c.kinds args := by
  intro hp
  obtain ⟨j, hj, -, w, hw, hc⟩ := hb
  have hjl : j < c.kinds.length := (List.getElem?_eq_some_iff.1 hj).1
  have hz : (c.kinds.zip args)[j]? = some (.pointer, w) := by
    rw [getElem?_zip_eq_some]; exact ⟨hj, (hargs j hjl).trans hw⟩
  have := hp (.pointer, w) (mem_of_getElem? hz) rfl
  rw [hc] at this; cases this

theorem kinds_length (c : Call) : 0 + c.kinds.length ≤ 3 := by cases c <;> decide

theorem syscallCase_dispatched (eax : ℕ) (hs : addr (esp + 4) ≠ 0) (hargs : ArgsValid S esp c) :
    Dispatched S esp c (syscallCase S eax c c.kinds.length c.kinds c.guarded (addr (esp + 4))).trace := by
  have hinv : isInvalidPt S.pd (addr (esp + 4)) c.kinds.length = false :=
    isInvalidPt_words.2 ⟨hs, by simpa using argsValid_iff.1 hargs⟩
  rw [syscallCase_trace, hinv]
  cases getArgs_fetched S eax hs (kinds_length c) with
  | all args hval hlen hwords _ hptr hloads heff =>
    rw [hval]
    dsimp only
    rw [if_neg (guard_of_pointersOk hptr)]
    refine ⟨?_, args, hlen, fun i hi => ?_, fun _ => ?_, fun h => absurd hptr h⟩
    · exact hloads.append fun a ha => by simp at ha
    · rw [hwords i hi]; exact S.loadWord_congr (addr_arg esp i)
    · rw [effects_append, effects_append, heff]; rfl
  | bad hbad hval hloads heff =>
    rw [hval]
    obtain ⟨args, hlen, hwords⟩ := exists_args hargs
    refine ⟨by simpa using hloads, args, hlen, hwords, fun h => ?_, fun _ => by simpa using heff⟩
    exact absurd h (not_pointersOk_of_badArg (badArg_iff.2 hbad) hwords)
  | invalid _ hwords _ => exact absurd (argsValid_iff.1 hargs) hwords

theorem isInvalidPt_of_not_argsValid (hargs : ¬ ArgsValid S esp c) :
    isInvalidPt S.pd (addr (esp + 4)) c.kinds.length = true := by
  by_contra h
  have := (isInvalidPt_words.1 (by simpa using h)).2
  exact hargs (argsValid_iff.2 (by simpa using this))

/-- A case with an invalid word ends the process only because of a pointer before that word. -/
theorem syscallCase_terminated_iff (hs : addr (esp + 4) ≠ 0) (hargs : ¬ ArgsValid S esp c) :
    Terminated S.pd (syscallCase S eax c c.kinds.length c.kinds c.guarded (addr (esp + 4))).trace ↔
      BadArg S esp c := by
  rw [syscallCase_trace, isInvalidPt_of_not_argsValid hargs, badArg_iff]
  cases getArgs_fetched S eax hs (kinds_length c) with
  | all _ _ _ _ hwords _ _ _ => exact absurd (argsValid_iff.2 hwords) hargs
  | bad hbad hval hloads heff =>
    rw [hval]
    refine iff_of_true ⟨?_, .inr (.inl ?_)⟩ hbad
    · intro a ha
      exact hloads a (by simpa using ha)
    · rw [effects_append, effects_append, heff]; rfl
  | invalid hloads _ hbad =>
    refine iff_of_false (fun h => hloads fun a ha => h.1 a ?_) hbad
    exact mem_append_right _ (mem_append_left _ ha)

end

/-- **The handler does what it has to exactly if** the word of the number is valid and, if this
    is the number of a call, the stack pointer is not null and the words of the arguments are
    valid, or valid up to a pointer that does not pass its check. -/
theorem handlerOk_iff (S : Space) (eax esp : ℕ) : HandlerOk S esp (syscallHandler S eax esp).trace ↔
    WordValid S.pd esp ∧ ∀ n c, S.loadWord esp = some n → Call.ofNumber n = some c →
      esp ≠ 0 ∧ (ArgsValid S esp c ∨ BadArg S esp c) := by
  constructor
  · rintro ⟨h1, h2⟩
    have hv : WordValid S.pd esp := by
      by_contra hv
      have ht := h1 hv
      rcases eq_or_ne esp 0 with rfl | h0
      · have := ht.2
        rw [syscallHandler_zero] at this
        simp at this
      · exact hv (wordValid_addr.1 (ht.1 _ (syscallHandler_load h0)))
    refine ⟨hv, fun n c hn hc => ?_⟩
    obtain ⟨h3, h4⟩ := h2 hv n c hn hc
    have h0 : esp ≠ 0 := by
      rintro rfl
      by_cases ha : ArgsValid S 0 c
      · obtain ⟨-, args, -, -, h5, h6⟩ := h4 ha
        rw [syscallHandler_zero] at h5 h6
        by_cases hp : PointersOk S.pd c.kinds args
        · simpa using h5 hp
        · simpa using h6 hp
      · have := (h3 ha).2
        rw [syscallHandler_zero] at this
        simp at this
    refine ⟨h0, or_iff_not_imp_left.2 fun ha => ?_⟩
    have ht := h3 ha
    rw [syscallHandler_valid h0 hv hn hc, Terminated, loadsValid_cons hv, effects_load] at ht
    exact (syscallCase_terminated_iff (stack_ne_zero hv) ha).1 ht
  · rintro ⟨hv, h⟩
    refine ⟨fun h => absurd hv h, fun _ n c hn hc => ?_⟩
    obtain ⟨h0, hb⟩ := h n c hn hc
    rw [syscallHandler_valid h0 hv hn hc]
    have hs := stack_ne_zero hv
    constructor
    · intro ha
      rw [Terminated, loadsValid_cons hv, effects_load]
      exact (syscallCase_terminated_iff hs ha).2 (hb.resolve_left ha)
    · intro ha
      rw [Dispatched, loadsValid_cons hv, effects_load]
      exact syscallCase_dispatched eax hs ha

/-- A process whose only page is the one below `PHYS_BASE`; its last word is the number of
    `exit`, and the kernel memory behind it holds 7. -/
def lastWordSpace : Space where
  pd := fun i => if i = 767 then some fun j => if j = 1023 then 0x7 else 0 else none
  byte := fun a => if a = 0xc0000ffc then 1 else if a = 0xc0000000 then 7 else 0
  kernel := fun a => a < 0xc0400000

/-- With the number at the top of the stack, `exit` is called with a word of kernel memory; with
    the number in a page that is not mapped, the number is loaded all the same. -/
theorem handler_loads_invalid_words :
    (syscallHandler lastWordSpace 0 0xbffffffc).trace =
      [.load 0xbffffffc, .record (-1), .load 0xc0000000, .call .exit [7]] ∧
    ¬ HandlerOk lastWordSpace 0xbffffffc (syscallHandler lastWordSpace 0 0xbffffffc).trace ∧
    (syscallHandler lastWordSpace 0 0x1000).trace = [.record (-1), .load 0x1000] ∧
    ¬ HandlerOk lastWordSpace 0x1000 (syscallHandler lastWordSpace 0 0x1000).trace := by
  have h1 : (syscallHandler lastWordSpace 0 0xbffffffc).trace =
      [.load 0xbffffffc, .record (-1), .load 0xc0000000, .call .exit [7]] := by decide
  have h2 : (syscallHandler lastWordSpace 0 0x1000).trace = [.record (-1), .load 0x1000] := by decide
  have hv1 : WordValid lastWordSpace.pd 0xbffffffc := by decide
  have hv2 : ¬ Valid lastWordSpace.pd 0x1000 := by decide
  have hv3 : ¬ Valid lastWordSpace.pd 0xc0000000 := by decide
  refine ⟨h1, fun h => ?_, h2, fun h => ?_⟩
  · have hn : lastWordSpace.loadWord 0xbffffffc = some 1 := by decide
    have ht := (h.2 hv1 1 .exit hn rfl).1 fun ha => hv3 (ha 0 (by decide) 0 (by decide))
    rw [h1] at ht
    have := ht.2
    simp [effects, Action.isLoad] at this
  · have ht := h.1 fun hv => hv2 (hv 0 (by decide))
    exact hv2 (ht.1 0x1000 (by decide) 0 (by decide))

end Pintos
