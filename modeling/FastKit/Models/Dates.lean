import FastKit.Calendar

/-! # Instants and intervals

An instant is a number of microseconds in UTC. The four interval units and the walk of
a schedule by one of them are here; an interval of length zero cannot be built, so a
walk never stands still.
-/

namespace FastKit

inductive IntervalUnit where
  | day | week | month | year
  deriving DecidableEq, Repr

/-- How far one of each unit walks, in days and in months. -/
def steps : IntervalUnit → ℕ × ℕ
  | .day => (1, 0)
  | .week => (7, 0)
  | .month => (0, 1)
  | .year => (0, 12)

structure Interval where
  unit : IntervalUnit
  value : ℕ
  pos : 0 < value
  deriving DecidableEq, Repr

def addInterval (moment : ℕ) (every : Interval) : ℕ :=
  Calendar.addMonths (moment + (steps every.unit).1 * every.value * Calendar.day)
    ((steps every.unit).2 * every.value)

theorem add_day_le_addInterval (moment : ℕ) (every : Interval) :
    moment + Calendar.day ≤ addInterval moment every := by
  obtain ⟨unit, value, pos⟩ := every
  have hweek : Calendar.day ≤ 7 * value * Calendar.day :=
    Nat.le_mul_of_pos_left _ (by omega)
  have hday : Calendar.day ≤ 1 * value * Calendar.day :=
    Nat.le_mul_of_pos_left _ (by omega)
  cases unit with
  | day => simpa [addInterval, steps] using hday
  | week => simpa [addInterval, steps] using hweek
  | month =>
    simpa [addInterval, steps] using Calendar.add_day_le_addMonths moment pos
  | year =>
    simpa [addInterval, steps] using
      Calendar.add_day_le_addMonths moment (show 0 < 12 * value by omega)

theorem lt_addInterval (moment : ℕ) (every : Interval) :
    moment < addInterval moment every := by
  have h := add_day_le_addInterval moment every
  have hd : 0 < Calendar.day := by decide
  omega

/-- The last slot not past `moment` of a schedule that stands at `slot`, at most `fuel`
slots on. -/
def walk (every : Interval) (moment : ℕ) : ℕ → ℕ → ℕ
  | 0, slot => slot
  | fuel + 1, slot =>
    if addInterval slot every ≤ moment then walk every moment fuel (addInterval slot every)
    else slot

theorem le_walk (every : Interval) (moment : ℕ) (fuel slot : ℕ) :
    slot ≤ walk every moment fuel slot := by
  induction fuel generalizing slot with
  | zero => exact Nat.le_refl _
  | succ fuel ih =>
    rw [walk]
    split_ifs
    · exact Nat.le_trans (Nat.le_of_lt (lt_addInterval slot every)) (ih _)
    · exact Nat.le_refl _

theorem walk_le {every : Interval} {moment : ℕ} {slot : ℕ} (fuel : ℕ)
    (h : slot ≤ moment) : walk every moment fuel slot ≤ moment := by
  induction fuel generalizing slot with
  | zero => exact h
  | succ fuel ih =>
    rw [walk]
    split_ifs with hs
    · exact ih hs
    · exact h

/-- With a step of fuel for each day left, a walk stops because the next slot is past
the moment and not because the fuel ran out. -/
theorem lt_addInterval_walk (every : Interval) (moment : ℕ) (fuel slot : ℕ)
    (h : moment < slot + (fuel + 1) * Calendar.day) :
    moment < addInterval (walk every moment fuel slot) every := by
  have hstep := add_day_le_addInterval slot every
  induction fuel generalizing slot with
  | zero => rw [walk]; omega
  | succ fuel ih =>
    rw [walk]
    split_ifs with hs
    · refine ih _ ?_ (add_day_le_addInterval _ _)
      rw [Nat.add_mul, Nat.one_mul] at h
      omega
    · exact Nat.lt_of_not_le hs

/-- The slot a schedule that stands at `since` is in at `moment`. -/
def landing (every : Interval) (since moment : ℕ) : ℕ :=
  walk every moment ((moment - since) / Calendar.day) since

theorem le_landing (every : Interval) (since moment : ℕ) :
    since ≤ landing every since moment := le_walk _ _ _ _

theorem landing_le {every : Interval} {since moment : ℕ} (h : since ≤ moment) :
    landing every since moment ≤ moment := walk_le _ h

theorem lt_addInterval_landing (every : Interval) (since moment : ℕ) :
    moment < addInterval (landing every since moment) every := by
  apply lt_addInterval_walk
  have h := Nat.div_add_mod (moment - since) Calendar.day
  have hlt : (moment - since) % Calendar.day < Calendar.day := Nat.mod_lt _ (by decide)
  rw [Nat.mul_comm] at h
  rw [Nat.add_mul, Nat.one_mul]
  omega

end FastKit
