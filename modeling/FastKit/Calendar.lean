import Mathlib.Tactic.Common
import Mathlib.Tactic.IntervalCases
import Mathlib.Order.Monotone.Basic

/-! # Instants and the proleptic Gregorian calendar

An instant is a count of microseconds from the first day of year one. Months are
numbered from that day too, so a month is one number and not a year and a rest; the
month of a day is found from an estimate of its year.
-/

namespace FastKit.Calendar

/-- Microseconds in a day. -/
def day : ℕ := 86400000000

/-- Microseconds in a second. -/
def second : ℕ := 1000000

/-- The day a leap year has more than another one. -/
def leapDay (year : ℕ) : ℕ := if year % 4 = 0 ∧ (year % 100 ≠ 0 ∨ year % 400 = 0) then 1 else 0

/-- Days before the first of january, `y` years after year one. -/
def yearStart (y : ℕ) : ℕ := 365 * y + y / 4 - y / 100 + y / 400

/-- Days before month `m`, counted from zero, of a year with `extra` leap days. -/
def daysInto (extra m : ℕ) : ℕ :=
  match m with
  | 0 => 0
  | 1 => 31
  | m + 2 => (match m with
      | 0 => 59 | 1 => 90 | 2 => 120 | 3 => 151 | 4 => 181 | 5 => 212
      | 6 => 243 | 7 => 273 | 8 => 304 | _ => 334) + extra

/-- Days before month `k`. -/
def monthStart (k : ℕ) : ℕ := yearStart (k / 12) + daysInto (leapDay (k / 12 + 1)) (k % 12)

def monthLength (k : ℕ) : ℕ :=
  match k % 12 with
  | 1 => 28 + leapDay (k / 12 + 1)
  | 3 | 5 | 8 | 10 => 30
  | _ => 31

theorem yearStart_succ (y : ℕ) : yearStart (y + 1) = yearStart y + 365 + leapDay (y + 1) := by
  have h4 : (y + 1) / 4 = y / 4 + if (y + 1) % 4 = 0 then 1 else 0 := by split_ifs <;> omega
  have h100 : (y + 1) / 100 = y / 100 + if (y + 1) % 100 = 0 then 1 else 0 := by
    split_ifs <;> omega
  have h400 : (y + 1) / 400 = y / 400 + if (y + 1) % 400 = 0 then 1 else 0 := by
    split_ifs <;> omega
  have hle : y / 100 ≤ y / 4 := Nat.div_le_div_left (by decide) (by decide)
  have hdvd : (y + 1) % 100 = 0 → (y + 1) % 4 = 0 := by omega
  have hdvd' : (y + 1) % 400 = 0 → (y + 1) % 100 = 0 := by omega
  rw [yearStart, yearStart, leapDay, h4, h100, h400]
  generalize (y + 1) % 4 = a at *
  generalize (y + 1) % 100 = b at *
  generalize (y + 1) % 400 = c at *
  generalize y / 4 = q at *
  generalize y / 100 = r at *
  split_ifs <;> omega

theorem monthStart_succ (k : ℕ) : monthStart (k + 1) = monthStart k + monthLength k := by
  obtain ⟨y, m, hm, rfl⟩ : ∃ y m, m < 12 ∧ k = 12 * y + m :=
    ⟨k / 12, k % 12, Nat.mod_lt _ (by decide), (Nat.div_add_mod k 12).symm⟩
  have hd : (12 * y + m) / 12 = y := by omega
  have hr : (12 * y + m) % 12 = m := by omega
  simp only [monthStart, monthLength, hd, hr]
  rcases Nat.lt_or_ge m 11 with h | h
  · have hd' : (12 * y + m + 1) / 12 = y := by omega
    have hr' : (12 * y + m + 1) % 12 = m + 1 := by omega
    rw [hd', hr']
    interval_cases m <;> simp only [daysInto] <;> omega
  · obtain rfl : m = 11 := by omega
    have hd' : (12 * y + 11 + 1) / 12 = y + 1 := by omega
    have hr' : (12 * y + 11 + 1) % 12 = 0 := by omega
    rw [hd', hr', yearStart_succ]
    simp only [daysInto]
    omega

theorem monthLength_ge (k : ℕ) : 28 ≤ monthLength k := by
  unfold monthLength
  split <;> omega

theorem monthStart_mono : Monotone monthStart :=
  monotone_nat_of_le_succ fun k => by rw [monthStart_succ]; omega

/-- The first of the months from `k` on, `fuel` of them at most, that `d` is not past. -/
def scan (d : ℕ) : ℕ → ℕ → ℕ
  | 0, k => k
  | fuel + 1, k => if d < monthStart (k + 1) then k else scan d fuel (k + 1)

/-- The month a day lies in, looked for from the year before its estimated one. -/
def monthOf (d : ℕ) : ℕ := scan d 36 (12 * (400 * d / 146097 - 1))

theorem scan_spec {d : ℕ} (fuel k : ℕ) (hk : monthStart k ≤ d) (hf : d < monthStart (k + fuel)) :
    monthStart (scan d fuel k) ≤ d ∧ d < monthStart (scan d fuel k + 1) := by
  induction fuel generalizing k with
  | zero => exact absurd hf (by simpa using hk)
  | succ fuel ih =>
    rw [scan]
    split_ifs with h
    · exact ⟨hk, h⟩
    · exact ih (k + 1) (Nat.le_of_not_lt h) (by rwa [show k + 1 + fuel = k + (fuel + 1) by omega])

@[simp] theorem monthStart_year (y : ℕ) : monthStart (12 * y) = yearStart y := by
  simp [monthStart, daysInto]

theorem monthOf_spec (d : ℕ) : monthStart (monthOf d) ≤ d ∧ d < monthStart (monthOf d + 1) := by
  apply scan_spec
  · rw [monthStart_year]; unfold yearStart; omega
  · rw [show 12 * (400 * d / 146097 - 1) + 36 = 12 * (400 * d / 146097 - 1 + 3) by omega,
      monthStart_year]
    unfold yearStart
    omega

/-- The day `n` months after `d`, on the last of its month where that month is shorter. -/
def dayAfterMonths (d n : ℕ) : ℕ :=
  monthStart (monthOf d + n) + min (d - monthStart (monthOf d)) (monthLength (monthOf d + n) - 1)

@[simp] theorem dayAfterMonths_zero (d : ℕ) : dayAfterMonths d 0 = d := by
  obtain ⟨hl, hu⟩ := monthOf_spec d
  rw [monthStart_succ] at hu
  unfold dayAfterMonths
  rw [Nat.add_zero]
  omega

theorem lt_dayAfterMonths (d : ℕ) {n : ℕ} (hn : 0 < n) : d < dayAfterMonths d n := by
  have hu := (monthOf_spec d).2
  have hm : monthStart (monthOf d + 1) ≤ monthStart (monthOf d + n) := monthStart_mono (by omega)
  unfold dayAfterMonths
  omega

/-- The instant `n` months on, at the same time of the day. -/
def addMonths (moment n : ℕ) : ℕ := dayAfterMonths (moment / day) n * day + moment % day

@[simp] theorem addMonths_zero (moment : ℕ) : addMonths moment 0 = moment := by
  rw [addMonths, dayAfterMonths_zero, Nat.mul_comm, Nat.div_add_mod]

theorem add_day_le_addMonths (moment : ℕ) {n : ℕ} (hn : 0 < n) :
    moment + day ≤ addMonths moment n := by
  have h : moment / day + 1 ≤ dayAfterMonths (moment / day) n := lt_dayAfterMonths _ hn
  have h' := Nat.mul_le_mul_right day h
  have hdm := Nat.div_add_mod moment day
  rw [Nat.add_mul, Nat.one_mul, Nat.mul_comm] at h'
  unfold addMonths
  omega

/-- The last of january and a month lands on the last of february. -/
example : addMonths ((monthStart (12 * 2023) + 30) * day) 1 =
    (monthStart (12 * 2023 + 1) + 28) * day := by decide

end FastKit.Calendar
