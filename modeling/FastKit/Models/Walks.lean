import FastKit.Models.Dates
import Mathlib.Logic.Function.Iterate
import Mathlib.Tactic.Common

/-! # Walks of a schedule

A schedule is walked from a slot to the next one, so what a walk reaches is an iterate of one
step. It lands on the one slot a moment is in. In months a step is not additive: a day a short
month took away does not come back.
-/

namespace FastKit

namespace Calendar

/-- The day within its month, counted from zero. -/
def dayOfMonth (d : ℕ) : ℕ := d - monthStart (monthOf d)

theorem monthOf_eq {d k : ℕ} (hle : monthStart k ≤ d) (hlt : d < monthStart (k + 1)) :
    monthOf d = k := by
  obtain ⟨hl, hu⟩ := monthOf_spec d
  by_contra hne
  rcases Nat.lt_or_gt_of_ne hne with h | h
  · have hmono : monthStart (monthOf d + 1) ≤ monthStart k := monthStart_mono h
    omega
  · have hmono : monthStart (k + 1) ≤ monthStart (monthOf d) := monthStart_mono h
    omega

theorem dayAfterMonths_lt (d n : ℕ) : dayAfterMonths d n < monthStart (monthOf d + n + 1) := by
  have hpos := monthLength_ge (monthOf d + n)
  rw [monthStart_succ, dayAfterMonths]
  omega

theorem monthOf_dayAfterMonths (d n : ℕ) : monthOf (dayAfterMonths d n) = monthOf d + n :=
  monthOf_eq (Nat.le_add_right _ _) (dayAfterMonths_lt d n)

theorem dayOfMonth_dayAfterMonths (d n : ℕ) :
    dayOfMonth (dayAfterMonths d n) = min (dayOfMonth d) (monthLength (monthOf d + n) - 1) := by
  rw [dayOfMonth, monthOf_dayAfterMonths, dayAfterMonths, Nat.add_sub_cancel_left, dayOfMonth]

theorem dayOfMonth_lt (d : ℕ) : dayOfMonth d < monthLength (monthOf d) := by
  obtain ⟨hl, hu⟩ := monthOf_spec d
  rw [monthStart_succ] at hu
  unfold dayOfMonth
  omega

/-- A day is its month and its day within it. -/
theorem day_eq_iff {d e : ℕ} : d = e ↔ monthOf d = monthOf e ∧ dayOfMonth d = dayOfMonth e := by
  constructor
  · rintro rfl
    exact ⟨rfl, rfl⟩
  · rintro ⟨hmonth, hday⟩
    have hd := (monthOf_spec d).1
    have he := (monthOf_spec e).1
    simp only [dayOfMonth, hmonth] at hday hd
    omega

theorem addMonths_div (moment n : ℕ) :
    addMonths moment n / day = dayAfterMonths (moment / day) n := by
  have hpos : 0 < day := by decide
  rw [addMonths, Nat.mul_comm, Nat.mul_add_div hpos, Nat.div_eq_of_lt (Nat.mod_lt _ hpos),
    Nat.add_zero]

theorem dayAfterMonths_mono {d e : ℕ} (h : d ≤ e) (n : ℕ) :
    dayAfterMonths d n ≤ dayAfterMonths e n := by
  obtain ⟨hd, hd'⟩ := monthOf_spec d
  obtain ⟨he, he'⟩ := monthOf_spec e
  rcases Nat.lt_or_ge (monthOf d) (monthOf e) with hlt | hge
  · have hday := dayAfterMonths_lt d n
    have hstart : monthStart (monthOf d + n + 1) ≤ monthStart (monthOf e + n) :=
      monthStart_mono (by omega)
    have hle : monthStart (monthOf e + n) ≤ dayAfterMonths e n := Nat.le_add_right _ _
    omega
  · have hsame : monthOf d = monthOf e := by
      by_contra hne
      have hmono : monthStart (monthOf e + 1) ≤ monthStart (monthOf d) :=
        monthStart_mono (by omega)
      omega
    unfold dayAfterMonths
    rw [hsame]
    omega

theorem addMonths_mod (moment n : ℕ) : addMonths moment n % day = moment % day := by
  rw [addMonths, Nat.add_comm, Nat.add_mul_mod_self_right, Nat.mod_mod]

theorem monthOf_iterate (d n k : ℕ) : monthOf ((dayAfterMonths · n)^[k] d) = monthOf d + k * n := by
  induction k with
  | zero => simp
  | succ k ih =>
    rw [Function.iterate_succ_apply', monthOf_dayAfterMonths, ih, Nat.add_one_mul]
    omega

/-- What is left of the day after a walk is what every month of it left. -/
theorem le_dayOfMonth_iterate {d n k t : ℕ} : t ≤ dayOfMonth ((dayAfterMonths · n)^[k] d) ↔
    t ≤ dayOfMonth d ∧ ∀ j, 0 < j → j ≤ k → t < monthLength (monthOf d + j * n) := by
  induction k with
  | zero =>
    refine ⟨fun h => ⟨h, fun j hj hjk => absurd hjk (Nat.not_le_of_lt hj)⟩, fun h => h.1⟩
  | succ k ih =>
    have hpos := monthLength_ge (monthOf d + (k + 1) * n)
    have hmonth : monthOf d + k * n + n = monthOf d + (k + 1) * n := by
      rw [Nat.add_one_mul]
      omega
    rw [Function.iterate_succ_apply', dayOfMonth_dayAfterMonths, monthOf_iterate, hmonth,
      le_min_iff, ih]
    constructor
    · rintro ⟨⟨hday, hrest⟩, hlast⟩
      refine ⟨hday, fun j hj hjk => ?_⟩
      rcases Nat.lt_or_eq_of_le hjk with hlt | rfl
      · exact hrest j hj (Nat.le_of_lt_succ hlt)
      · omega
    · rintro ⟨hday, hall⟩
      have hlast := hall (k + 1) (Nat.succ_pos k) le_rfl
      exact ⟨⟨hday, fun j hj hjk => hall j hj (Nat.le_succ_of_le hjk)⟩, by omega⟩

end Calendar

/-- The slot a schedule is at after `k` steps from its anchor. -/
def nthSlot (every : Interval) (anchor k : ℕ) : ℕ := (addInterval · every)^[k] anchor

variable {every : Interval} {anchor since moment k : ℕ}

@[simp] theorem nthSlot_zero : nthSlot every anchor 0 = anchor := rfl

theorem nthSlot_succ : nthSlot every anchor (k + 1) = addInterval (nthSlot every anchor k) every :=
  Function.iterate_succ_apply' _ _ _

theorem nthSlot_addInterval :
    nthSlot every (addInterval anchor every) k = nthSlot every anchor (k + 1) :=
  (Function.iterate_succ_apply _ _ _).symm

theorem nthSlot_nthSlot {j : ℕ} :
    nthSlot every (nthSlot every anchor j) k = nthSlot every anchor (j + k) := by
  rw [Nat.add_comm]
  exact (Function.iterate_add_apply _ k j anchor).symm

/-- The slots of a schedule come one after the other. -/
theorem nthSlot_strictMono : StrictMono (nthSlot every anchor) :=
  strictMono_nat_of_lt_succ fun k => by
    rw [nthSlot_succ]
    exact lt_addInterval _ _

theorem exists_walk (every : Interval) (moment fuel since : ℕ) :
    ∃ k, walk every moment fuel since = nthSlot every since k := by
  induction fuel generalizing since with
  | zero => exact ⟨0, rfl⟩
  | succ fuel ih =>
    rw [walk]
    split_ifs
    · obtain ⟨k, hk⟩ := ih (addInterval since every)
      exact ⟨k + 1, hk.trans nthSlot_addInterval⟩
    · exact ⟨0, rfl⟩

/-- A walk of a schedule never leaves it. -/
theorem exists_landing (every : Interval) (since moment : ℕ) :
    ∃ k, landing every since moment = nthSlot every since k := by
  unfold landing
  exact exists_walk every moment _ since

/-- A moment is in one slot of a schedule at most. -/
theorem slot_unique {j k : ℕ} (hj : nthSlot every anchor j ≤ moment)
    (hj' : moment < nthSlot every anchor (j + 1)) (hk : nthSlot every anchor k ≤ moment)
    (hk' : moment < nthSlot every anchor (k + 1)) : j = k := by
  have h₁ : j < k + 1 := nthSlot_strictMono.lt_iff_lt.mp (Nat.lt_of_le_of_lt hj hk')
  have h₂ : k < j + 1 := nthSlot_strictMono.lt_iff_lt.mp (Nat.lt_of_le_of_lt hk hj')
  omega

/-- A walk lands on the slot the moment is in. -/
theorem landing_eq_iff (h : since ≤ moment) : landing every since moment = nthSlot every since k ↔
    nthSlot every since k ≤ moment ∧ moment < nthSlot every since (k + 1) := by
  obtain ⟨j, hj⟩ := exists_landing every since moment
  have hle : nthSlot every since j ≤ moment := hj ▸ landing_le h
  have hlt : moment < nthSlot every since (j + 1) := by
    rw [nthSlot_succ, ← hj]
    exact lt_addInterval_landing every since moment
  rw [hj]
  constructor
  · intro hsame
    obtain rfl := nthSlot_strictMono.injective hsame
    exact ⟨hle, hlt⟩
  · rintro ⟨hk, hk'⟩
    rw [slot_unique hle hlt hk hk']

/-- Every moment from the anchor on is in one slot of the schedule, and the walk lands on it. -/
theorem existsUnique_landing (h : since ≤ moment) : ∃ k, landing every since moment =
    nthSlot every since k ∧ nthSlot every since k ≤ moment ∧
      moment < nthSlot every since (k + 1) := by
  obtain ⟨k, hk⟩ := exists_landing every since moment
  exact ⟨k, hk, (landing_eq_iff h).mp hk⟩

/-- A step keeps the time of the day. -/
theorem addInterval_mod (moment : ℕ) (every : Interval) :
    addInterval moment every % Calendar.day = moment % Calendar.day := by
  rw [addInterval, Calendar.addMonths_mod, Nat.add_mul_mod_self_right]

theorem nthSlot_mod : nthSlot every anchor k % Calendar.day = anchor % Calendar.day := by
  induction k with
  | zero => rfl
  | succ k ih => rw [nthSlot_succ, addInterval_mod, ih]

/-- At one time of the day, what starts later steps later. -/
theorem addInterval_le {d e : ℕ} (every : Interval) (h : d ≤ e)
    (hmod : d % Calendar.day = e % Calendar.day) : addInterval d every ≤ addInterval e every := by
  have hdays : (d + (steps every.unit).1 * every.value * Calendar.day) / Calendar.day ≤
      (e + (steps every.unit).1 * every.value * Calendar.day) / Calendar.day :=
    Nat.div_le_div_right (Nat.add_le_add_right h _)
  have hmonths := Calendar.dayAfterMonths_mono hdays ((steps every.unit).2 * every.value)
  unfold addInterval Calendar.addMonths
  rw [Nat.add_mul_mod_self_right, Nat.add_mul_mod_self_right, hmod]
  exact Nat.add_le_add_right (Nat.mul_le_mul_right _ hmonths) _

/-- The months of one step of an interval. -/
def Interval.months (every : Interval) : ℕ := (steps every.unit).2 * every.value

/-- An interval of months or of years. -/
def Interval.monthly (every : Interval) : Prop := every.unit = .month ∨ every.unit = .year

instance : Decidable every.monthly := inferInstanceAs (Decidable (_ ∨ _))

theorem addInterval_monthly (h : every.monthly) (moment : ℕ) :
    addInterval moment every = Calendar.addMonths moment every.months := by
  have hdays : (steps every.unit).1 = 0 := by
    rcases h with h | h <;> rw [h] <;> rfl
  rw [addInterval, hdays, Nat.zero_mul, Nat.zero_mul, Nat.add_zero, Interval.months]

theorem nthSlot_div (h : every.monthly) : nthSlot every anchor k / Calendar.day =
    (Calendar.dayAfterMonths · every.months)^[k] (anchor / Calendar.day) := by
  induction k with
  | zero => rfl
  | succ k ih =>
    rw [nthSlot_succ, addInterval_monthly h, Calendar.addMonths_div, ih,
      Function.iterate_succ_apply']

/-- No month a walk stops in before its `k`-th slot is too short for the day that slot is to fall
on: the day of the anchor, or the last of its month. -/
def keepsDay (every : Interval) (anchor k : ℕ) : Prop :=
  let d := anchor / Calendar.day
  ∀ j < k, min (Calendar.dayOfMonth d)
    (Calendar.monthLength (Calendar.monthOf d + k * every.months) - 1) <
      Calendar.monthLength (Calendar.monthOf d + j * every.months)

instance : Decidable (keepsDay every anchor k) := inferInstanceAs (Decidable (∀ j < k, _))

/-- A slot falls on the day the anchor advanced at once falls on exactly where no month between
them took a day of it away. -/
theorem nthSlot_keeps_day (h : every.monthly) : nthSlot every anchor k / Calendar.day =
    Calendar.addMonths anchor (k * every.months) / Calendar.day ↔ keepsDay every anchor k := by
  rw [nthSlot_div h, Calendar.addMonths_div, Calendar.day_eq_iff, Calendar.monthOf_iterate,
    Calendar.monthOf_dayAfterMonths, Calendar.dayOfMonth_dayAfterMonths, keepsDay]
  generalize anchor / Calendar.day = d
  generalize ht : min (Calendar.dayOfMonth d)
    (Calendar.monthLength (Calendar.monthOf d + k * every.months) - 1) = t
  have hpos := Calendar.monthLength_ge (Calendar.monthOf d + k * every.months)
  have hday := Calendar.dayOfMonth_lt d
  -- a walk never gains a day, so it is at the day exactly where it still has it
  have hle : Calendar.dayOfMonth ((Calendar.dayAfterMonths · every.months)^[k] d) ≤ t := by
    obtain ⟨hd, hall⟩ := Calendar.le_dayOfMonth_iterate.mp
      (le_refl (Calendar.dayOfMonth ((Calendar.dayAfterMonths · every.months)^[k] d)))
    rcases Nat.eq_zero_or_pos k with rfl | hk
    · rw [Nat.zero_mul, Nat.add_zero] at ht
      change Calendar.dayOfMonth d ≤ t
      omega
    · have hlast := hall k hk le_rfl
      omega
  have hiff : Calendar.dayOfMonth ((Calendar.dayAfterMonths · every.months)^[k] d) = t ↔
      t ≤ Calendar.dayOfMonth ((Calendar.dayAfterMonths · every.months)^[k] d) :=
    ⟨fun he => he.ge, fun hge => le_antisymm hle hge⟩
  rw [hiff, Calendar.le_dayOfMonth_iterate]
  constructor
  · rintro ⟨-, -, hall⟩ j hj
    rcases Nat.eq_zero_or_pos j with rfl | hpos'
    · rw [Nat.zero_mul, Nat.add_zero]
      omega
    · exact hall j hpos' (Nat.le_of_lt hj)
  · intro hall
    refine ⟨rfl, by omega, fun j hj hjk => ?_⟩
    rcases Nat.lt_or_eq_of_le hjk with hlt | rfl
    · exact hall j hlt
    · omega

/-- The first of january 2024. -/
def january : ℕ := Calendar.monthStart (12 * 2023) * Calendar.day

def everyMonth : Interval := ⟨.month, 1, by decide⟩

theorem nthSlot_keeps_day_twice : nthSlot everyMonth january 2 / Calendar.day =
    Calendar.addMonths january (2 * everyMonth.months) / Calendar.day ↔
      keepsDay everyMonth january 2 :=
  nthSlot_keeps_day (.inl rfl)

/-- What is due on the last of january is due on the 29th of march: february took two days. -/
theorem nthSlot_drifts : ¬∀ (every : Interval) (anchor k : ℕ), every.monthly →
    nthSlot every anchor k / Calendar.day =
      Calendar.addMonths anchor (k * every.months) / Calendar.day := by
  intro h
  have hdays := h everyMonth (january + 30 * Calendar.day) 2 (.inl rfl)
  revert hdays
  decide

end FastKit
