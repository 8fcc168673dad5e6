/-
  The real-time clock (devices/rtc.c).

  `rtc_get_time` counts the days of the month it is in as if they had passed, and takes every
  fourth year from 1970 on for a leap year.  The time it returns is weeks late for every date.
-/
import Mathlib.Tactic

namespace Pintos.Rtc

open List

/-- What `cmos_read (index)` returns, at the n-th call. -/
abbrev Cmos := ℕ → ℕ → UInt8

def bcdToBin (x : UInt8) : ℕ := x.toNat % 16 + x.toNat / 16 * 10

structure Components where
  sec : ℕ
  min : ℕ
  hour : ℕ
  mday : ℕ
  mon : ℕ
  year : ℕ

/-- The loop of `rtc_get_time` for at most `fuel` turns, after `n` reads. -/
def components (cmos : Cmos) : ℕ → ℕ → Option Components
  | 0, _ => none
  | fuel + 1, n =>
    let c : Components := ⟨bcdToBin (cmos n 0), bcdToBin (cmos (n + 1) 2), bcdToBin (cmos (n + 2) 4),
      bcdToBin (cmos (n + 3) 7), bcdToBin (cmos (n + 4) 8), bcdToBin (cmos (n + 5) 9)⟩
    if c.sec ≠ bcdToBin (cmos (n + 6) 0) then components cmos fuel (n + 7) else some c

def daysPerMonth : List ℕ := [31, 28, 31, 30, 31, 30, 31, 31, 30, 31, 30, 31]

/-- The rest of `rtc_get_time`; of the year 0 the quotient `(year - 1) / 4` is zero, too. -/
def Components.time (c : Components) : ℕ :=
  let year := (if c.year < 70 then c.year + 100 else c.year) - 70
  let time := (year * 365 + (year - 1) / 4) * 24 * 60 * 60
  let time := (List.range c.mon).foldl (fun time i => time + daysPerMonth.getD i 0 * 24 * 60 * 60) time
  let time := if 2 < c.mon ∧ year % 4 = 0 then time + 24 * 60 * 60 else time
  (time + (c.mday - 1) * 24 * 60 * 60 + c.hour * 60 * 60 + c.min * 60 + c.sec) % 2 ^ 32

def rtcGetTime (cmos : Cmos) (fuel : ℕ) : Option ℕ := (components cmos fuel 0).map Components.time

/-! ## Dates -/

def IsLeap (year : ℕ) : Prop := year % 4 = 0 ∧ (year % 100 ≠ 0 ∨ year % 400 = 0)

instance (year : ℕ) : Decidable (IsLeap year) := inferInstanceAs (Decidable (_ ∧ _))

def daysOfYear (year : ℕ) : ℕ := if IsLeap year then 366 else 365

def daysOfMonth (year mon : ℕ) : ℕ := if mon = 2 ∧ IsLeap year then 29 else daysPerMonth.getD (mon - 1) 0

structure Date where
  year : ℕ
  mon : ℕ
  mday : ℕ
  hour : ℕ
  min : ℕ
  sec : ℕ

/-- A date from 1970 to 2037. -/
structure Date.Valid (d : Date) : Prop where
  year_ge : 1970 ≤ d.year
  year_le : d.year ≤ 2037
  mon_pos : 1 ≤ d.mon
  mon_le : d.mon ≤ 12
  mday_pos : 1 ≤ d.mday
  mday_le : d.mday ≤ daysOfMonth d.year d.mon
  hour_lt : d.hour < 24
  min_lt : d.min < 60
  sec_lt : d.sec < 60

/-- The days from 1970-01-01 to the date. -/
def Date.days (d : Date) : ℕ :=
  ((List.range (d.year - 1970)).map fun k => daysOfYear (1970 + k)).sum +
    ((List.range (d.mon - 1)).map fun k => daysOfMonth d.year (k + 1)).sum + (d.mday - 1)

/-- The seconds from the epoch to the date. -/
def Date.unixTime (d : Date) : ℕ := d.days * 86400 + d.hour * 3600 + d.min * 60 + d.sec

/-- A number below 100 in BCD. -/
def bcd (n : ℕ) : UInt8 := UInt8.ofNat (n / 10 * 16 + n % 10)

/-- The chip presents the date. -/
structure Date.Presented (d : Date) (cmos : Cmos) : Prop where
  sec : ∀ n, cmos n 0 = bcd d.sec
  min : ∀ n, cmos n 2 = bcd d.min
  hour : ∀ n, cmos n 4 = bcd d.hour
  mday : ∀ n, cmos n 7 = bcd d.mday
  mon : ∀ n, cmos n 8 = bcd d.mon
  year : ∀ n, cmos n 9 = bcd (d.year % 100)

/-! ## How late the clock is -/

/-- The days by which the time is late: those of the month, where the leap days do not make up
    for one of them. -/
def Date.lateDays (d : Date) : ℕ :=
  daysPerMonth.getD (d.mon - 1) 0 + (if 2 < d.mon ∧ d.year % 4 = 2 then 1 else 0) -
    (if 1970 < d.year ∧ (d.year % 4 = 1 ∨ d.year % 4 = 2) then 1 else 0) - (if 2 < d.mon ∧ d.year % 4 = 0 then 1 else 0)

theorem bcdToBin_bcd : ∀ {n : ℕ}, n < 100 → bcdToBin (bcd n) = n := by
  decide

theorem days_of_years : ∀ {n : ℕ}, n < 68 →
    ((List.range n).map fun k => daysOfYear (1970 + k)).sum = n * 365 + (n + 1) / 4 := by
  decide

theorem isLeap_iff {year : ℕ} (h1 : 1970 ≤ year) (h2 : year ≤ 2037) : IsLeap year ↔ year % 4 = 0 := by
  unfold IsLeap
  omega

variable {d : Date} {cmos : Cmos}

theorem Date.Valid.mday_le_31 (h : d.Valid) : d.mday ≤ 31 := by
  have hle := h.mday_le
  have h2 := h.mon_le
  unfold daysOfMonth at hle
  generalize d.mon = mon at *
  split_ifs at hle
  · omega
  · interval_cases mon <;> exact hle.trans (by decide)

theorem Date.Presented.components_eq (h : d.Presented cmos) (hv : d.Valid) (fuel n : ℕ) :
    components cmos (fuel + 1) n = some ⟨d.sec, d.min, d.hour, d.mday, d.mon, d.year % 100⟩ := by
  have h1 := hv.sec_lt
  have h2 := hv.min_lt
  have h3 := hv.hour_lt
  have h4 := hv.mday_le_31
  have h5 := hv.mon_le
  unfold components
  rw [h.sec, h.sec, h.min, h.hour, h.mday, h.mon, h.year, bcdToBin_bcd (by omega), bcdToBin_bcd (by omega),
    bcdToBin_bcd (by omega), bcdToBin_bcd (by omega), bcdToBin_bcd (by omega), bcdToBin_bcd (Nat.mod_lt _ (by decide))]
  exact if_neg (not_not_intro rfl)

theorem months_added (time : ℕ) : ∀ mon, (List.range mon).foldl (fun time i => time + daysPerMonth.getD i 0 * 24 * 60 * 60) time =
    time + 86400 * ((List.range mon).map fun i => daysPerMonth.getD i 0).sum
  | 0 => rfl
  | mon + 1 => by
    rw [range_succ, foldl_append, map_append, sum_append, months_added time mon]
    simp only [foldl_cons, foldl_nil, map_cons, map_nil, sum_singleton]
    ring

theorem months_passed {year mon : ℕ} (h1 : 1 ≤ mon) (h2 : mon ≤ 12) (hleap : IsLeap year ↔ year % 4 = 0) :
    ((List.range (mon - 1)).map fun k => daysOfMonth year (k + 1)).sum + daysPerMonth.getD (mon - 1) 0 =
      ((List.range mon).map fun i => daysPerMonth.getD i 0).sum + if 2 < mon ∧ year % 4 = 0 then 1 else 0 := by
  unfold daysOfMonth
  simp only [hleap]
  by_cases hy : year % 4 = 0 <;> simp only [hy] <;> interval_cases mon <;> decide

theorem days_of_month {mon : ℕ} (h1 : 1 ≤ mon) (h2 : mon ≤ 12) :
    28 ≤ daysPerMonth.getD (mon - 1) 0 ∧ ((List.range mon).map fun i => daysPerMonth.getD i 0).sum ≤ 365 := by
  interval_cases mon <;> decide

/-- **The clock is late** by 26 days or more, whatever the date. -/
theorem rtcGetTime_late (h : d.Valid) (hp : d.Presented cmos) (fuel : ℕ) :
    rtcGetTime cmos (fuel + 1) = some (d.unixTime + 86400 * d.lateDays) ∧ 26 ≤ d.lateDays := by
  have hy1 := h.year_ge
  have hy2 := h.year_le
  have hyears := days_of_years (n := d.year - 1970) (by omega)
  have hpassed := months_passed h.mon_pos h.mon_le (isLeap_iff hy1 hy2)
  obtain ⟨hm1, hm2⟩ := days_of_month h.mon_pos h.mon_le
  have hmday := h.mday_le_31
  have hmday' := h.mday_pos
  have hhour := h.hour_lt
  have hmin := h.min_lt
  have hsec := h.sec_lt
  have hyear : (if d.year % 100 < 70 then d.year % 100 + 100 else d.year % 100) - 70 = d.year - 1970 := by
    split_ifs <;> omega
  constructor
  · rw [rtcGetTime, hp.components_eq h fuel 0, Option.map_some, Option.some.injEq]
    unfold Components.time
    dsimp only
    rw [hyear, months_added]
    unfold Date.unixTime Date.days Date.lateDays
    rw [hyears]
    generalize ((List.range d.mon).map fun i => daysPerMonth.getD i 0).sum = added at *
    generalize ((List.range (d.mon - 1)).map fun k => daysOfMonth d.year (k + 1)).sum = passed at *
    generalize daysPerMonth.getD (d.mon - 1) 0 = month at *
    split_ifs at hpassed ⊢ <;> omega
  · unfold Date.lateDays
    split_ifs <;> omega

/-- A chip that presents the date. -/
def Date.chip (d : Date) : Cmos := fun _ i =>
  bcd (if i = 0 then d.sec else if i = 2 then d.min else if i = 4 then d.hour else if i = 7 then d.mday
    else if i = 8 then d.mon else d.year % 100)

theorem Date.chip_presents (d : Date) : d.Presented d.chip :=
  ⟨fun _ => rfl, fun _ => rfl, fun _ => rfl, fun _ => rfl, fun _ => rfl, fun _ => rfl⟩

theorem rtcGetTime_late_epoch :
    rtcGetTime (⟨1970, 1, 1, 0, 0, 0⟩ : Date).chip 1 = some (86400 * 31) ∧ 26 ≤ (⟨1970, 1, 1, 0, 0, 0⟩ : Date).lateDays :=
  rtcGetTime_late ⟨by decide, by decide, by decide, by decide, by decide, by decide, by decide, by decide, by decide⟩
    (Date.chip_presents ⟨1970, 1, 1, 0, 0, 0⟩) 0

/-- The epoch comes out 31 days late, and the end of February 2006 27 days. -/
theorem epoch_is_late : rtcGetTime (⟨1970, 1, 1, 0, 0, 0⟩ : Date).chip 1 ≠ some (⟨1970, 1, 1, 0, 0, 0⟩ : Date).unixTime ∧
    rtcGetTime (⟨2006, 2, 28, 0, 0, 0⟩ : Date).chip 1 = some ((⟨2006, 2, 28, 0, 0, 0⟩ : Date).unixTime + 86400 * 27) := by
  decide

end Pintos.Rtc
