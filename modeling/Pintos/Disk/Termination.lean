/-
  When the scan for partitions ends (devices/partition.c).

  Each call of `read_partition_table` reads the master boot record again.
-/
import Pintos.Disk.Partition

namespace Pintos.Disk

open Lib Prog List

/-- `partition_scan` ends, whatever `malloc` answers: some depth of the recursion is not exceeded. -/
def Terminates (d : Device) : Prop :=
  ∃ depth, ∀ fuel ≥ depth, ∀ blocks memory, (readPartitionTable d fuel 0 0).run ⟨0, blocks, memory⟩ ≠ .error .stack

/-- An entry that is followed. -/
def Entry.Followed (e : Entry) : Prop := e.isEmpty = false ∧ e.isExtended = true

/-- No extended partition leads to another call inside the device. -/
def Device.Bounded (d : Device) : Prop :=
  signature (d.sector 0) = 0xaa55 → ∀ e ∈ partitions (d.sector 0), ∀ e' ∈ partitions (d.sector 0), e.Followed → e'.Followed →
    e.offset < d.size → d.size ≤ (e'.offset + e.offset) % 2 ^ 32

section
variable {d : Device} {s : Scan} {e : Entry} {l : List Entry} {sector primary : ℕ} {next : ℕ → ℕ → ScanM Unit}

/-! ## Recursion that ends -/

/-- The program does not run out of stack. -/
def NoStack (x : ScanM Unit) : Prop := ∀ s, x.run s ≠ .error .stack

theorem noStack_pure : NoStack (pure ()) := fun _ => nofun

variable {x : ScanM Unit}

theorem NoStack.bind {f : Unit → ScanM Unit} (hx : NoStack x) (hf : NoStack (f ())) : NoStack (x >>= f) := by
  intro s
  rw [StateT.run_bind]
  cases hrun : x.run s with
  | error e =>
    intro he
    exact hx s (hrun.trans he)
  | ok r => exact hf r.2

theorem noStack_malloc (message : String) : NoStack (malloc message) := by
  intro s
  unfold malloc
  rw [run_bind_get, run_bind_set]
  split_ifs
  · nofun
  · nofun

theorem noStack_foundPartition (d : Device) (partType start size partNr : ℕ) : NoStack (foundPartition d partType start size partNr) := by
  unfold foundPartition
  split_ifs
  · exact noStack_pure
  · exact noStack_pure
  · exact (noStack_malloc _).bind ((noStack_malloc _).bind fun _ => nofun)

theorem noStack_tableTurn (h1 : e.Followed → sector = 0 → NoStack (next e.offset e.offset))
    (h2 : e.Followed → sector ≠ 0 → NoStack (next ((e.offset + primary) % 2 ^ 32) primary)) :
    NoStack (tableTurn d next sector primary e) := by
  unfold tableTurn
  split_ifs with hempty hext hsector
  · exact noStack_pure
  · exact h1 ⟨Bool.eq_false_of_not_eq_true hempty, hext⟩ hsector
  · exact h2 ⟨Bool.eq_false_of_not_eq_true hempty, hext⟩ hsector
  · intro s
    rw [run_bind_modify, run_bind_get]
    exact noStack_foundPartition d _ _ _ _ _

theorem noStack_tableLoop (h : ∀ e ∈ l, NoStack (tableTurn d next sector primary e)) : NoStack (tableLoop d next sector primary l) := by
  induction l with
  | nil => exact noStack_pure
  | cons e l ih =>
    exact (h e mem_cons_self).bind (ih fun e he => h e (mem_cons_of_mem _ he))

/-- A table from which no call runs out of stack. -/
theorem noStack_readPartitionTable {fuel : ℕ}
    (h : sector < d.size → signature (d.sector 0) = 0xaa55 → ∀ e ∈ partitions (d.sector 0),
      NoStack (tableTurn d (readPartitionTable d fuel) sector primary e)) : NoStack (readPartitionTable d (fuel + 1) sector primary) := by
  rw [readPartitionTable]
  split_ifs with hpast
  · exact noStack_pure
  · refine (noStack_malloc _).bind ?_
    dsimp only
    split_ifs with hsig
    · exact noStack_pure
    · exact noStack_tableLoop (h (by omega) (not_not.1 hsig))

theorem terminates_of_bounded (h : d.Bounded) : Terminates d := by
  refine ⟨3, fun fuel hfuel blocks memory => ?_⟩
  obtain ⟨fuel, rfl⟩ : ∃ n, fuel = n + 3 := ⟨fuel - 3, by omega⟩
  refine noStack_readPartitionTable (fun hsize hsig e he => noStack_tableTurn (fun hfollow _ => ?_) fun _ hne => absurd rfl hne) _
  refine noStack_readPartitionTable fun hin _ e' he' => noStack_tableTurn (fun hfollow' hzero => ?_) fun hfollow' _ => ?_
  · -- an offset of zero leads back to the start
    have := h hsig e he e he hfollow hfollow hin
    rw [hzero] at this
    omega
  · have := h hsig e he e' he' hfollow hfollow' hin
    exact noStack_readPartitionTable fun hin' => absurd hin' (by omega)

/-! ## Recursion without end -/

/-- With memory for every call, the program runs out of stack or returns, and there still is memory. -/
def Quiet (x : ScanM Unit) : Prop :=
  ∀ s : Scan, (∀ n, s.memory n = true) → x.run s = .error .stack ∨ ∃ t : Scan, x.run s = .ok ((), t) ∧ ∀ n, t.memory n = true

theorem quiet_pure : Quiet (pure ()) := fun s hs => .inr ⟨s, rfl, hs⟩

theorem Quiet.bind {f : Unit → ScanM Unit} (hx : Quiet x) (hf : Quiet (f ())) : Quiet (x >>= f) := by
  intro s hs
  rcases hx s hs with hrun | ⟨t, hrun, ht⟩
  · left
    rw [StateT.run_bind, hrun]
    rfl
  · rw [run_bind_ok hrun]
    exact hf t ht

theorem quiet_malloc (message : String) : Quiet (malloc message) := fun _ hs => .inr ⟨_, malloc_run hs message, fun n => hs (n + 1)⟩

theorem quiet_modify {f : Scan → Scan} (hf : ∀ s, (f s).memory = s.memory) : Quiet (modify f) := fun s hs =>
  .inr ⟨f s, rfl, by rwa [hf]⟩

theorem quiet_foundPartition (d : Device) (partType start size partNr : ℕ) : Quiet (foundPartition d partType start size partNr) := by
  unfold foundPartition
  split_ifs
  · exact quiet_pure
  · exact quiet_pure
  · exact (quiet_malloc _).bind ((quiet_malloc _).bind (quiet_modify fun _ => rfl))

theorem quiet_tableTurn (h : ∀ a b, Quiet (next a b)) (sector primary : ℕ) (e : Entry) : Quiet (tableTurn d next sector primary e) := by
  unfold tableTurn
  split_ifs
  · exact quiet_pure
  · exact h _ _
  · exact h _ _
  · refine (quiet_modify (f := fun s => { s with partNr := s.partNr + 1 }) fun _ => rfl).bind fun s hs => ?_
    rw [run_bind_get]
    exact quiet_foundPartition d _ _ _ _ s hs

theorem quiet_tableLoop (h : ∀ a b, Quiet (next a b)) (sector primary : ℕ) (l : List Entry) :
    Quiet (tableLoop d next sector primary l) := by
  induction l with
  | nil => exact quiet_pure
  | cons e l ih => exact (quiet_tableTurn h sector primary e).bind ih

theorem quiet_readPartitionTable (d : Device) (fuel : ℕ) : ∀ sector primary, Quiet (readPartitionTable d fuel sector primary) := by
  induction fuel with
  | zero => exact fun _ _ _ _ => .inl rfl
  | succ fuel ih =>
    intro sector primary
    rw [readPartitionTable]
    split_ifs
    · exact quiet_pure
    · refine (quiet_malloc _).bind ?_
      dsimp only
      split_ifs
      · exact quiet_pure
      · exact quiet_tableLoop ih sector primary _

/-- With memory for every call, the program runs out of stack. -/
def Endless (x : ScanM Unit) : Prop := ∀ s : Scan, (∀ n, s.memory n = true) → x.run s = .error .stack

theorem Endless.bind (hx : Endless x) (f : Unit → ScanM Unit) : Endless (x >>= f) := by
  intro s hs
  rw [StateT.run_bind, hx s hs]
  rfl

theorem endless_tableLoop (h : ∀ a b, Quiet (next a b)) (he : e ∈ l) (hturn : Endless (tableTurn d next sector primary e)) :
    Endless (tableLoop d next sector primary l) := by
  induction l with
  | nil => cases he
  | cons x l ih =>
    rw [tableLoop]
    rcases mem_cons.1 he with rfl | he
    · exact hturn.bind _
    · intro s hs
      rcases quiet_tableTurn h sector primary x s hs with hrun | ⟨t, hrun, ht⟩
      · rw [StateT.run_bind, hrun]
        rfl
      · rw [run_bind_ok hrun]
        exact ih he t ht

theorem endless_readPartitionTable {e' : Entry} (hsig : signature (d.sector 0) = 0xaa55) (he : e ∈ partitions (d.sector 0))
    (he' : e' ∈ partitions (d.sector 0)) (hfollow : e.Followed) (hfollow' : e'.Followed) (hin : e.offset < d.size)
    (hin' : (e'.offset + e.offset) % 2 ^ 32 < d.size) (fuel : ℕ) :
    ∀ sector primary, sector < d.size → sector = 0 ∨ primary = e.offset → Endless (readPartitionTable d fuel sector primary) := by
  induction fuel with
  | zero => exact fun _ _ _ _ _ _ => rfl
  | succ fuel ih =>
    intro sector primary hsector hcase
    have hloop : Endless (tableLoop d (readPartitionTable d fuel) sector primary (partitions (d.sector 0))) := by
      by_cases hzero : sector = 0
      · refine endless_tableLoop (quiet_readPartitionTable d fuel) he ?_
        rw [tableTurn, hfollow.1, hfollow.2, if_neg (by decide), if_pos rfl, if_pos hzero]
        exact ih _ _ hin (.inr rfl)
      · have hprimary := hcase.resolve_left hzero
        refine endless_tableLoop (quiet_readPartitionTable d fuel) he' ?_
        rw [tableTurn, hfollow'.1, hfollow'.2, if_neg (by decide), if_pos rfl, if_neg hzero, hprimary]
        exact ih _ _ hin' (.inr rfl)
    intro s hs
    rw [readPartitionTable, if_neg (by omega), run_bind_ok (malloc_run hs _)]
    rw [if_neg (not_not.2 hsig)]
    exact hloop _ fun n => hs (n + 1)

theorem not_terminates {e' : Entry} (hsig : signature (d.sector 0) = 0xaa55) (he : e ∈ partitions (d.sector 0))
    (he' : e' ∈ partitions (d.sector 0)) (hfollow : e.Followed) (hfollow' : e'.Followed) (hin : e.offset < d.size)
    (hin' : (e'.offset + e.offset) % 2 ^ 32 < d.size) : ¬Terminates d := by
  rintro ⟨depth, h⟩
  refine h depth le_rfl [] (fun _ => true) ?_
  exact endless_readPartitionTable hsig he he' hfollow hfollow' hin hin' depth 0 0 (by omega) (.inl rfl) _ fun _ => rfl

/-- **`partition_scan` ends if and only if** sector 0 has no signature, or no two extended partitions of its table, which may be the same
one, lie in the device by the offset of the first and by the sum of both. -/
theorem terminates_iff (d : Device) : Terminates d ↔ d.Bounded := by
  refine ⟨fun hterm hsig e he e' he' hfollow hfollow' hin => ?_, terminates_of_bounded⟩
  by_contra hlt
  exact not_terminates hsig he he' hfollow hfollow' hin (by omega) hterm

theorem three_lt : 3 < 2 ^ 32 := by decide

/-- A device of three sectors with an extended partition in the second one, whose table is empty. -/
def diskEndless : Device :=
  Device.filled ⟨tableBytes [0, 0, 0, 0, 0x05, 0, 0, 0, 1, 0, 0, 0, 1, 0, 0, 0], 3, three_lt⟩ tableNone

theorem diskEndless_spec : signature (diskEndless.sector 0) = 0xaa55 ∧
    partitions (diskEndless.sector 0) = [⟨0x05, 1, 1⟩, ⟨0, 0, 0⟩, ⟨0, 0, 0⟩, ⟨0, 0, 0⟩] := by
  decide +kernel

/-- The tables form no cycle, but the scan does not end. -/
theorem scan_endless : diskEndless.Lists [] ∧ ¬Terminates diskEndless := by
  obtain ⟨hsigned, htable⟩ := diskEndless_spec
  have hone : diskEndless.sector 1 = tableNone := sector_filled tableNone_spec.1 (by decide)
  have hmem : ⟨0x05, 1, 1⟩ ∈ partitions (diskEndless.sector 0) := by
    rw [htable]
    exact mem_cons_self
  refine ⟨⟨by decide, hsigned, ?_⟩, not_terminates hsigned hmem hmem ⟨rfl, rfl⟩ ⟨rfl, rfl⟩ (by decide) (by decide)⟩
  have hsub := lists_tableNone diskEndless 1
  rw [← hone] at hsub
  rw [htable]
  exact Lists.extended (e := ⟨0x05, 1, 1⟩) rfl rfl (by decide) (by decide) (by rw [hone]; exact tableNone_spec.2.1) hsub
    ((Lists.nil.zero).zero).zero

end

end Pintos.Disk
