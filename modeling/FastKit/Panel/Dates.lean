import FastKit.Calendar
import FastKit.Text.Decimals

/-! # Instants of the browser

An instant is a count of milliseconds from the first of january 1970, before it or behind it, and
the calendar runs on without an end in either direction. What a text of an instant looks like, how
it is read back, and which counts are instants at all.
-/

namespace FastKit.Dates

open Calendar (monthStart monthLength monthOf)
open Text (padded field mark markedField)

/-- Days from the first day of year one to the first of january 1970. -/
def epoch : ℤ := 719162

/-- The days after which the calendar repeats itself, which are those of four centuries. -/
def cycle : ℤ := 146097

/-- The number of a month of a year among those of four centuries, both counted from zero. -/
def monthNumber (year : ℤ) (month : Fin 12) : ℕ := 12 * ((year - 1) % 400).toNat + month

theorem monthLength_le (k : ℕ) : monthLength k ≤ 31 := by
  have : Calendar.leapDay (k / 12 + 1) ≤ 1 := by unfold Calendar.leapDay; split_ifs <;> decide
  unfold monthLength
  split <;> omega

/-- An instant as a calendar and a clock write it. Months and days are counted from zero. -/
@[ext] structure Civil where
  year : ℤ
  month : Fin 12
  day : ℕ
  hour : Fin 24
  minute : Fin 60
  second : Fin 60
  millisecond : Fin 1000
  day_lt : day < monthLength (monthNumber year month)

/-- The day a month begins with, counted from the epoch. -/
def firstDay (year : ℤ) (month : Fin 12) : ℤ :=
  (year - 1) / 400 * cycle + monthStart (monthNumber year month) - epoch

/-- The day of a calendar, counted from the epoch. -/
def Civil.dayNumber (c : Civil) : ℤ := firstDay c.year c.month + c.day

/-- The milliseconds of a clock since midnight. -/
def Civil.clock (c : Civil) : ℕ :=
  3600000 * c.hour + 60000 * c.minute + 1000 * c.second + c.millisecond

/-- The instant a calendar and a clock write. -/
def Civil.time (c : Civil) : ℤ := 86400000 * c.dayNumber + c.clock

theorem monthOf_lt {d : ℕ} (h : d < 146097) : monthOf d < 4800 := by
  by_contra hge
  have hs := Calendar.monthStart_mono (Nat.le_of_not_lt hge)
  have hd := (Calendar.monthOf_spec d).1
  have hc : monthStart 4800 = 146097 := by decide
  omega

theorem monthOf_eq {d k : ℕ} (hl : monthStart k ≤ d) (hu : d < monthStart (k + 1)) :
    monthOf d = k := by
  obtain ⟨hl', hu'⟩ := Calendar.monthOf_spec d
  by_contra h
  obtain h | h := Nat.lt_or_gt_of_ne h
  · have hm : monthStart (monthOf d + 1) ≤ monthStart k := Calendar.monthStart_mono h
    omega
  · have hm : monthStart (k + 1) ≤ monthStart (monthOf d) := Calendar.monthStart_mono h
    omega

/-- The day an instant falls on, counted from the first of its four centuries. -/
def dayInCycle (t : ℤ) : ℕ := ((t / 86400000 + epoch) % cycle).toNat

theorem dayInCycle_lt (t : ℤ) : dayInCycle t < 146097 := by
  unfold dayInCycle cycle
  omega

def yearOf (t : ℤ) : ℤ := 400 * ((t / 86400000 + epoch) / cycle) + monthOf (dayInCycle t) / 12 + 1

def monthIn (t : ℤ) : Fin 12 := ⟨monthOf (dayInCycle t) % 12, Nat.mod_lt _ (by decide)⟩

theorem monthNumber_of (t : ℤ) : monthNumber (yearOf t) (monthIn t) = monthOf (dayInCycle t) := by
  have h := monthOf_lt (dayInCycle_lt t)
  simp only [monthNumber, yearOf, monthIn]
  omega

/-- What the calendar and the clock of an instant write. -/
def civil (t : ℤ) : Civil where
  year := yearOf t
  month := monthIn t
  day := dayInCycle t - monthStart (monthOf (dayInCycle t))
  hour := ⟨(t % 86400000).toNat / 3600000, by omega⟩
  minute := ⟨(t % 86400000).toNat / 60000 % 60, by omega⟩
  second := ⟨(t % 86400000).toNat / 1000 % 60, by omega⟩
  millisecond := ⟨(t % 86400000).toNat % 1000, by omega⟩
  day_lt := by
    have h := Calendar.monthOf_spec (dayInCycle t)
    rw [Calendar.monthStart_succ] at h
    rw [monthNumber_of]
    omega

theorem clock_civil (t : ℤ) : ((civil t).clock : ℤ) = t % 86400000 := by
  simp only [Civil.clock, civil]
  omega

theorem dayNumber_civil (t : ℤ) : (civil t).dayNumber = t / 86400000 := by
  have hs := (Calendar.monthOf_spec (dayInCycle t)).1
  have hk := monthOf_lt (dayInCycle_lt t)
  have hq : (yearOf t - 1) / 400 = (t / 86400000 + epoch) / cycle := by
    unfold yearOf
    omega
  have hd : (dayInCycle t : ℤ) = (t / 86400000 + epoch) % cycle := by
    unfold dayInCycle cycle
    omega
  simp only [Civil.dayNumber, firstDay, civil, monthNumber_of, hq]
  unfold cycle at *
  omega

/-- The calendar and the clock of an instant write that instant. -/
@[simp] theorem time_civil (t : ℤ) : (civil t).time = t := by
  rw [Civil.time, dayNumber_civil, clock_civil]
  omega

variable (c : Civil)

theorem clock_lt : c.clock < 86400000 := by
  have := c.hour.isLt
  have := c.minute.isLt
  have := c.second.isLt
  have := c.millisecond.isLt
  unfold Civil.clock
  omega

theorem time_div : c.time / 86400000 = c.dayNumber := by
  have := clock_lt c
  unfold Civil.time
  omega

theorem time_mod : (c.time % 86400000).toNat = c.clock := by
  have := clock_lt c
  unfold Civil.time
  omega

theorem monthNumber_lt (year : ℤ) (month : Fin 12) : monthNumber year month < 4800 := by
  have := month.isLt
  unfold monthNumber
  omega

/-- The day within its four centuries of a day the calendar has. -/
theorem dayOfCycle_lt : monthStart (monthNumber c.year c.month) + c.day < 146097 := by
  have hd := c.day_lt
  have hs := Calendar.monthStart_succ (monthNumber c.year c.month)
  have hm : monthStart (monthNumber c.year c.month + 1) ≤ monthStart 4800 :=
    Calendar.monthStart_mono (monthNumber_lt c.year c.month)
  have hc : monthStart 4800 = 146097 := by decide
  omega

theorem dayInCycle_time :
    dayInCycle c.time = monthStart (monthNumber c.year c.month) + c.day := by
  have hd := dayOfCycle_lt c
  unfold dayInCycle
  rw [time_div]
  unfold Civil.dayNumber firstDay cycle
  omega

theorem monthOf_time : monthOf (dayInCycle c.time) = monthNumber c.year c.month := by
  have hd := c.day_lt
  have hs := Calendar.monthStart_succ (monthNumber c.year c.month)
  rw [dayInCycle_time]
  exact monthOf_eq (by omega) (by omega)

theorem cycles_time : (c.time / 86400000 + epoch) / cycle = (c.year - 1) / 400 := by
  have hd := dayOfCycle_lt c
  rw [time_div]
  unfold Civil.dayNumber firstDay cycle
  omega

theorem yearOf_time : yearOf c.time = c.year := by
  have := c.month.isLt
  rw [yearOf, cycles_time, monthOf_time]
  unfold monthNumber
  omega

theorem monthIn_time : monthIn c.time = c.month := by
  have := c.month.isLt
  ext
  simp only [monthIn, monthOf_time, monthNumber]
  omega

/-- What a calendar and a clock write is what the instant written shows. -/
@[simp] theorem civil_time : civil c.time = c := by
  have := c.hour.isLt
  have := c.minute.isLt
  have := c.second.isLt
  have := c.millisecond.isLt
  ext
  case year => exact yearOf_time c
  case month => simp [civil, monthIn_time]
  case day => simp only [civil, monthOf_time]; rw [dayInCycle_time, Nat.add_sub_cancel_left]
  all_goals
    simp only [civil, time_mod, Civil.clock]
    omega

/-! ## Texts of instants -/

/-- Thrown where a date that is no instant is written. -/
inductive RangeError | invalidTime
  deriving DecidableEq, Repr

/-- The instant of a count of milliseconds, which reaches a hundred million days either way. -/
def timeClip (t : ℤ) : Option ℤ :=
  if -8640000000000000 ≤ t ∧ t ≤ 8640000000000000 then some t else none

/-- `Date.UTC(year, month, …)`, a month being counted from zero and a year below a hundred being one
of the last century. -/
def UTC (year : ℕ) (month day hour minute second : ℤ) : Option ℤ :=
  let full : ℤ := if year < 100 then 1900 + year else year
  timeClip (86400000 * (firstDay (full + month / 12) ⟨(month % 12).toNat, by omega⟩ + day - 1) +
    3600000 * hour + 60000 * minute + 1000 * second)

theorem UTC_civil (hy : 100 ≤ c.year) :
    UTC c.year.toNat (((c.month + 1 : ℕ) : ℤ) - 1) (c.day + 1 : ℕ) (c.hour : ℕ) (c.minute : ℕ)
      (c.second : ℕ) = timeClip (c.time - c.millisecond) := by
  have hm := c.month.isLt
  have hfull : (if c.year.toNat < 100 then 1900 + (c.year.toNat : ℤ) else c.year.toNat) =
      c.year := by
    rw [if_neg (by omega)]
    omega
  have hdiv : (((c.month + 1 : ℕ) : ℤ) - 1) / 12 = 0 := by omega
  have hmod : ((((c.month + 1 : ℕ) : ℤ) - 1) % 12).toNat = c.month := by omega
  simp only [UTC, hfull, hdiv, hmod, Int.add_zero, Fin.eta, Civil.time, Civil.dayNumber, Civil.clock]
  congr 1
  push_cast
  omega

/-- A year in four digits, or in six with its sign. -/
def yearText (year : ℤ) : List Char :=
  if 0 ≤ year ∧ year ≤ 9999 then padded 4 year.toNat
  else (if year < 0 then '-' else '+') :: padded 6 year.natAbs

/-- The text of a calendar and a clock down to the second, with a text behind it. -/
def stamp (c : Civil) (rest : List Char) : List Char :=
  yearText c.year ++ '-' :: (padded 2 (c.month + 1) ++ '-' :: (padded 2 (c.day + 1) ++
    'T' :: (padded 2 c.hour ++ ':' :: (padded 2 c.minute ++ ':' :: (padded 2 c.second ++ rest)))))

def toISOString : Option ℤ → Except RangeError (List Char)
  | none => .error .invalidTime
  | some t => .ok (stamp (civil t) ('.' :: (padded 3 (civil t).millisecond ++ ['Z'])))

def yearField (t : List Char) : Option (ℤ × List Char) :=
  match t with
  | '+' :: t => (field 6 t).map fun (n, t) => ((n : ℤ), t)
  | '-' :: t => (field 6 t).bind fun (n, t) => if n = 0 then none else some (-(n : ℤ), t)
  | t => (field 4 t).map fun (n, t) => ((n : ℤ), t)

def fractionField (t : List Char) : Option (ℕ × List Char) :=
  match t with
  | '.' :: t => field 3 t
  | t => some (0, t)

/-- The instant of what a calendar and a clock would write, where it is one they do write or the
midnight a day ends with. -/
def instantOf (year : ℤ) (month day hour minute second millisecond : ℕ) : Option ℤ :=
  if hm : 0 < month ∧ month ≤ 12 then
    if hd : 0 < day ∧ day ≤ monthLength (monthNumber year ⟨month - 1, by omega⟩) then
      if hc : hour < 24 ∧ minute < 60 ∧ second < 60 ∧ millisecond < 1000 then
        some (Civil.time ⟨year, ⟨month - 1, by omega⟩, day - 1, ⟨hour, hc.1⟩, ⟨minute, hc.2.1⟩,
          ⟨second, hc.2.2.1⟩, ⟨millisecond, hc.2.2.2⟩, by omega⟩)
      else if hour = 24 ∧ minute = 0 ∧ second = 0 ∧ millisecond = 0 then
        some (Civil.time ⟨year, ⟨month - 1, by omega⟩, day - 1, 0, 0, 0, 0, by omega⟩ + 86400000)
      else none
    else none
  else none

/-- The instant a text of the standard format down to the second writes. -/
def isoTime (t : List Char) : Option ℤ := do
  let (year, t) ← yearField t
  let (month, t) ← markedField '-' 2 t
  let (day, t) ← markedField '-' 2 t
  let (hour, t) ← markedField 'T' 2 t
  let (minute, t) ← markedField ':' 2 t
  let (second, t) ← markedField ':' 2 t
  let (millisecond, t) ← fractionField t
  if (← mark 'Z' t) = [] then instantOf year month day hour minute second millisecond else none

/-- `new Date(text)`, `otherwise` being what the browser reads in a text of any other format. -/
def parse (otherwise : List Char → Option ℤ) (t : List Char) : Option ℤ :=
  match isoTime t with
  | some time => timeClip time
  | none => otherwise t

theorem instantOf_civil :
    instantOf c.year (c.month + 1) (c.day + 1) c.hour c.minute c.second c.millisecond =
      some c.time := by
  have := c.month.isLt
  have := c.day_lt
  simp only [instantOf, Nat.add_sub_cancel]
  rw [dif_pos (by omega), dif_pos (by simp; omega), dif_pos (by simp)]

theorem yearField_of_isDigit {d : Char} (hd : d.isDigit) (t : List Char) :
    yearField (d :: t) = (field 4 (d :: t)).map fun (n, t) => ((n : ℤ), t) := by
  unfold yearField
  split
  case h_1 h =>
    obtain ⟨rfl, -⟩ := List.cons.inj h
    exact absurd hd (by decide)
  case h_2 h =>
    obtain ⟨rfl, -⟩ := List.cons.inj h
    exact absurd hd (by decide)
  case h_3 => rfl

theorem yearField_yearText {year : ℤ} (h : year.natAbs < 10 ^ 6) (t : List Char) :
    yearField (yearText year ++ t) = some (year, t) := by
  by_cases hy : 0 ≤ year ∧ year ≤ 9999
  · have hlt : year.toNat < 10 ^ 4 := by omega
    obtain ⟨d, u, hu⟩ : ∃ d u, padded 4 year.toNat = d :: u :=
      List.exists_cons_of_ne_nil fun he => by
        simpa [he] using Text.length_padded hlt (by decide)
    have hd : d.isDigit := Text.isDigit_padded 4 year.toNat d (by simp [hu])
    rw [yearText, if_pos hy, hu, List.cons_append, yearField_of_isDigit hd, ← List.cons_append,
      ← hu, Text.field_padded hlt (by decide)]
    simp [Int.toNat_of_nonneg hy.1]
  · rw [yearText, if_neg hy]
    by_cases hn : year < 0
    · simp only [hn, if_true, List.cons_append, yearField,
        Text.field_padded h (by decide : 0 < 6), Option.bind_some]
      rw [if_neg (by omega)]
      simp only [Option.some.injEq, Prod.mk.injEq, and_true]
      omega
    · simp only [hn, if_false, List.cons_append, yearField,
        Text.field_padded h (by decide : 0 < 6), Option.map_some]
      simp only [Option.some.injEq, Prod.mk.injEq, and_true]
      omega

/-- The text of a calendar and a clock is read back, whatever fraction of a second stands behind
it. -/
theorem isoTime_stamp (hy : c.year.natAbs < 10 ^ 6) {t : List Char}
    (ht : fractionField t = some ((c.millisecond : ℕ), ['Z'])) :
    isoTime (stamp c t) = some c.time := by
  have hm : (c.month : ℕ) + 1 < 10 ^ 2 := by have := c.month.isLt; omega
  have hd : c.day + 1 < 10 ^ 2 := by
    have := c.day_lt
    have := monthLength_le (monthNumber c.year c.month)
    omega
  have hh : (c.hour : ℕ) < 10 ^ 2 := by have := c.hour.isLt; omega
  have hi : (c.minute : ℕ) < 10 ^ 2 := by have := c.minute.isLt; omega
  have hs : (c.second : ℕ) < 10 ^ 2 := by have := c.second.isLt; omega
  have hw : 0 < 2 := by decide
  rw [isoTime, stamp, yearField_yearText hy]
  dsimp only [bind, Option.bind]
  simp only [Text.markedField_padded '-' hm hw, Text.markedField_padded '-' hd hw,
    Text.markedField_padded 'T' hh hw, Text.markedField_padded ':' hi hw,
    Text.markedField_padded ':' hs hw, ht, Text.mark_cons, if_true]
  exact instantOf_civil c

theorem fractionField_padded (n : Fin 1000) (t : List Char) :
    fractionField ('.' :: (padded 3 n ++ t)) = some ((n : ℕ), t) :=
  Text.field_padded n.isLt (by decide) t

theorem natAbs_yearOf_lt {t : ℤ} (h : -8640000000000000 ≤ t ∧ t ≤ 8640000000000000) :
    (yearOf t).natAbs < 10 ^ 6 := by
  have := monthOf_lt (dayInCycle_lt t)
  unfold yearOf epoch cycle
  omega

/-- The text an instant is written as is read as that instant. -/
theorem parse_toISOString {otherwise : List Char → Option ℤ} {t : ℤ} {text : List Char}
    (ht : timeClip t = some t) (h : toISOString (some t) = .ok text) :
    parse otherwise text = some t := by
  have hb : -8640000000000000 ≤ t ∧ t ≤ 8640000000000000 := by
    by_contra hb
    simp [timeClip, hb] at ht
  obtain rfl := Except.ok.inj h
  rw [parse, isoTime_stamp (civil t) (natAbs_yearOf_lt hb) (fractionField_padded _ ['Z']),
    time_civil]
  exact ht

end FastKit.Dates
