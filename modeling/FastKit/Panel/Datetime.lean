import FastKit.Panel.Dates
import FastKit.Panel.Zones
import Mathlib.Data.Rat.Cast.Order

/-! # The wall clock of the panel

The panel shows an instant as the wall clock of a time zone, and reads what is typed in one back as
an instant. A text is the list of its code units, and nothing reads as the empty one.
-/

namespace FastKit.Panel

open Dates (RangeError Civil civil timeClip parse toISOString)
open Text (decimal padded numeral)
open Zones (Zone)

def dateTimeLength : ℕ := 16

/-- What a formatter of the browser makes of an instant. -/
structure Piece where
  year : List Char
  month : List Char
  day : List Char
  hour : List Char
  minute : List Char
  second : List Char

def eraYear (year : ℤ) : ℕ := if 0 < year then year.toNat else (1 - year).toNat

def parts (Z : Zone) : Option ℤ → Except RangeError Piece
  | none => .error .invalidTime
  | some t => .ok {
      year := decimal (eraYear (civil (Z.wall t)).year)
      month := padded 2 ((civil (Z.wall t)).month + 1)
      day := padded 2 ((civil (Z.wall t)).day + 1)
      hour := padded 2 (civil (Z.wall t)).hour
      minute := padded 2 (civil (Z.wall t)).minute
      second := padded 2 (civil (Z.wall t)).second }

def toInputDateTime (otherwise : List Char → Option ℤ) (Z : Zone) (isoValue : List Char) :
    Except RangeError (List Char) :=
  if isoValue = [] then .ok []
  else do
    let piece ← parts Z (parse otherwise isoValue)
    return piece.year ++ '-' :: (piece.month ++ '-' :: (piece.day ++ 'T' :: (piece.hour ++
      ':' :: piece.minute)))

/-- A number of minutes, or no number where the instant of the pieces is none. -/
def offsetMinutes (Z : Zone) (value : Option ℤ) : Except RangeError (Option ℚ) := do
  let piece ← parts Z value
  let asUtc := Dates.UTC (numeral piece.year) ((numeral piece.month : ℤ) - 1) (numeral piece.day)
    (numeral piece.hour) (numeral piece.minute) (numeral piece.second)
  return do return (((← asUtc) - (← value) : ℤ) : ℚ) / 60000

/-- `new Date(value.getTime() - offset * 60000)` -/
def moved (value : Option ℤ) (offset : Option ℚ) : Option ℤ := do
  let time := ((← value) : ℚ) - (← offset) * 60000
  timeClip (if 0 ≤ time then time.floor else time.ceil)

/-- Whether two numbers are the same one, which no number is of none. -/
def sameNumber : Option ℚ → Option ℚ → Bool
  | some x, some y => x == y
  | _, _ => false

def fromInputDateTime (otherwise : List Char → Option ℤ) (Z : Zone) (localValue : List Char) :
    Except RangeError (Option (List Char)) :=
  if localValue = [] then .ok none
  else do
    let naive := parse otherwise (localValue.take dateTimeLength ++ [':', '0', '0', 'Z'])
    let offset ← offsetMinutes Z naive
    let instant := moved naive offset
    let corrected ← offsetMinutes Z instant
    let text ← toISOString (if sameNumber corrected offset then instant else moved naive corrected)
    return some text

/-- A minute of a wall clock, in a year of four digits. -/
structure LocalMinute where
  civil : Civil
  year : 1000 ≤ civil.year ∧ civil.year ≤ 9999
  whole : civil.second = 0 ∧ civil.millisecond = 0

namespace LocalMinute

def text (w : LocalMinute) : List Char :=
  decimal w.civil.year.toNat ++ '-' :: (padded 2 (w.civil.month + 1) ++
    '-' :: (padded 2 (w.civil.day + 1) ++ 'T' :: (padded 2 w.civil.hour ++
      ':' :: padded 2 w.civil.minute)))

/-- The instant a clock without a zone would name with a minute. -/
def time (w : LocalMinute) : ℤ := w.civil.time

theorem text_append (w : LocalMinute) :
    w.text ++ [':', '0', '0', 'Z'] = Dates.stamp w.civil ['Z'] := by
  have hy : Dates.yearText w.civil.year = decimal w.civil.year.toNat := by
    have := w.year
    rw [Dates.yearText, if_pos (by omega)]
    exact Text.padded_of_le (w := 3) (by omega)
  have hs : padded 2 w.civil.second = ['0', '0'] := by
    rw [w.whole.1]
    decide
  simp [text, Dates.stamp, hy, hs]

theorem length_text (w : LocalMinute) : w.text.length = dateTimeLength := by
  have hy := w.year
  have h4 := Text.length_decimal_le (w := 4) (n := w.civil.year.toNat) (by omega) (by decide)
  have h3 := Text.lt_length_decimal (w := 3) (n := w.civil.year.toNat) (by omega)
  have hm := w.civil.month.isLt
  have hd := w.civil.day_lt
  have hl := Dates.monthLength_le (Dates.monthNumber w.civil.year w.civil.month)
  have hh := w.civil.hour.isLt
  have hi := w.civil.minute.isLt
  simp only [text, List.length_append, List.length_cons,
    Text.length_padded (by omega : (w.civil.month : ℕ) + 1 < 10 ^ 2) (by decide),
    Text.length_padded (by omega : w.civil.day + 1 < 10 ^ 2) (by decide),
    Text.length_padded (by omega : (w.civil.hour : ℕ) < 10 ^ 2) (by decide),
    Text.length_padded (by omega : (w.civil.minute : ℕ) < 10 ^ 2) (by decide), dateTimeLength]
  omega

theorem text_ne_nil (w : LocalMinute) : w.text ≠ [] := by
  intro h
  have := w.length_text
  simp [h, dateTimeLength] at this

theorem time_mod (w : LocalMinute) : w.time % 60000 = 0 := by
  have h := w.whole
  simp only [time, Civil.time, Civil.clock, h.1, h.2, Fin.val_zero]
  omega

/-- A minute of a year of four digits lies within these years. -/
theorem time_within (w : LocalMinute) :
    -37000000000000 ≤ w.time ∧ w.time ≤ 254000000000000 := by
  have hy := w.year
  have hd := Dates.dayOfCycle_lt w.civil
  have hc := Dates.clock_lt w.civil
  unfold time Civil.time Civil.dayNumber Dates.firstDay Dates.cycle Dates.epoch
  omega

end LocalMinute

variable {Z : Zone} {otherwise : List Char → Option ℤ} {n t : ℤ}

/-- The years around those of four digits, in which the wall clock shows years of three digits or
more. -/
def InYears (t : ℤ) : Prop := -38000000000000 ≤ t ∧ t ≤ 255000000000000

theorem InYears.timeClip (h : InYears t) : timeClip t = some t := by
  unfold InYears at h
  exact if_pos (by omega)

theorem InYears.year_le (h : InYears t) : 100 ≤ (civil t).year := by
  have := Dates.dayInCycle_lt t
  unfold InYears at h
  simp only [civil, Dates.yearOf, Dates.epoch, Dates.cycle]
  omega

theorem numeral_eraYear {c : Civil} (h : 100 ≤ c.year) :
    numeral (decimal (eraYear c.year)) = c.year.toNat := by
  rw [Text.numeral_decimal, eraYear, if_pos (by omega)]

/-- The offset measured at a whole minute is the offset of the zone. -/
theorem offsetMinutes_eq (hw : InYears (Z.wall t)) (hm : t % 60000 = 0) :
    offsetMinutes Z (some t) = .ok (some (Z.offset t)) := by
  have hwm : Z.wall t % 60000 = 0 := by
    unfold Zone.wall Zone.ahead
    omega
  have hms : ((civil (Z.wall t)).millisecond : ℕ) = 0 := by
    simp only [civil]
    omega
  have hutc := Dates.UTC_civil (civil (Z.wall t)) hw.year_le
  rw [hms, Dates.time_civil, Nat.cast_zero, Int.sub_zero, hw.timeClip] at hutc
  simp only [offsetMinutes, parts, bind, Except.bind, pure, Except.pure, Text.numeral_padded,
    numeral_eraYear hw.year_le, hutc, Option.bind_some]
  simp [Zone.wall, Zone.ahead]

theorem moved_eq (hv : InYears (t - Z.ahead n)) :
    moved (some t) (some (Z.offset n)) = some (t - Z.ahead n) := by
  have hq : ((t : ℤ) : ℚ) - (Z.offset n : ℚ) * 60000 = ((t - Z.ahead n : ℤ) : ℚ) := by
    push_cast [Zone.ahead]
    rfl
  simp only [moved, bind, Option.bind_some, hq, Rat.floor_intCast, Rat.ceil_intCast, ite_self]
  exact hv.timeClip

theorem sameNumber_offset (Z : Zone) (t u : ℤ) :
    (sameNumber (some (Z.offset t)) (some (Z.offset u)) = true) ↔ Z.offset t = Z.offset u := by
  simp [sameNumber]

theorem parse_text (otherwise : List Char → Option ℤ) (w : LocalMinute) :
    parse otherwise (w.text.take dateTimeLength ++ [':', '0', '0', 'Z']) = some w.time := by
  have hy := w.year
  have hb := w.time_within
  rw [← w.length_text, List.take_length, w.text_append, parse, Dates.isoTime_stamp _ (by omega)]
  · exact InYears.timeClip (t := w.time) ⟨by omega, by omega⟩
  · simp [Dates.fractionField, w.whole.2]

/-- A minute typed is read as the instant the zone finds for it. -/
theorem fromInputDateTime_text (otherwise : List Char → Option ℤ) (Z : Zone) (w : LocalMinute) :
    fromInputDateTime otherwise Z w.text = (toISOString (some (Z.found w.time))).map some := by
  have hb := w.time_within
  have hm := w.time_mod
  have h₀ := Z.ahead_within w.time
  have h₁ := Z.ahead_within (w.time - Z.ahead w.time)
  have hoffset : offsetMinutes Z (some w.time) = .ok (some (Z.offset w.time)) := by
    refine offsetMinutes_eq ⟨?_, ?_⟩ hm <;> unfold Zone.wall <;> omega
  have hinstant := moved_eq (Z := Z) (t := w.time) (n := w.time) ⟨by omega, by omega⟩
  have hcorrected : offsetMinutes Z (some (w.time - Z.ahead w.time)) =
      .ok (some (Z.offset (w.time - Z.ahead w.time))) := by
    refine offsetMinutes_eq ⟨?_, ?_⟩ ?_
    · unfold Zone.wall
      omega
    · unfold Zone.wall
      omega
    · unfold Zone.ahead
      omega
  have hmoved := moved_eq (Z := Z) (t := w.time) (n := w.time - Z.ahead w.time)
    ⟨by omega, by omega⟩
  have hfound : (if sameNumber (some (Z.offset (w.time - Z.ahead w.time)))
      (some (Z.offset w.time)) then some (w.time - Z.ahead w.time)
      else some (w.time - Z.ahead (w.time - Z.ahead w.time))) = some (Z.found w.time) := by
    simp only [sameNumber_offset, Zone.found]
    split_ifs <;> rfl
  simp only [fromInputDateTime, if_neg w.text_ne_nil, parse_text, hoffset, bind, Except.bind,
    hinstant, hcorrected, hmoved, hfound]
  rfl

/-- A text of an instant within these years is shown as the minute its wall clock shows. -/
theorem toInputDateTime_of_parse {value : List Char} (hne : value ≠ [])
    (hv : parse otherwise value = some t) {w : LocalMinute} (hw : w.time = Z.wall t) :
    toInputDateTime otherwise Z value = .ok w.text := by
  have hc : civil (Z.wall t) = w.civil := by rw [← hw, LocalMinute.time, Dates.civil_time]
  have hy : 0 < w.civil.year := by have := w.year; omega
  rw [toInputDateTime, if_neg hne, hv]
  simp only [parts, hc, bind, Except.bind, pure, Except.pure, eraYear, if_pos hy]
  rfl

theorem toISOString_ne_nil {iso : List Char} (h : toISOString (some t) = .ok iso) : iso ≠ [] := by
  rintro rfl
  simp [toISOString, Dates.stamp] at h

theorem inYears_of_wall {w : LocalMinute} (hw : w.time = Z.wall t) : InYears t := by
  have hb := w.time_within
  have ha := Z.ahead_within t
  unfold Zone.wall at hw
  constructor <;> omega

/-- A wall clock typed is the instant it names: a minute the clock of the zone strikes is shown
again for what was read in it; a whole minute the clock shows once, in a year of four digits, is
read again in what is shown for it, whichever way it was written; and a minute that the clock jumps
over, as it does over every one it never strikes, is read as far off as the clock jumps. -/
theorem typed_clock_named (otherwise : List Char → Option ℤ) (Z : Zone) :
    (∀ w : LocalMinute, Z.Occurs w.time →
      ∃ iso, fromInputDateTime otherwise Z w.text = .ok (some iso) ∧
        toInputDateTime otherwise Z iso = .ok w.text) ∧
    (∀ t, t % 60000 = 0 → (1000 ≤ (civil (Z.wall t)).year ∧ (civil (Z.wall t)).year ≤ 9999) →
      (∀ u, Z.wall u = Z.wall t → u = t) →
      ∃ iso, toISOString (some t) = .ok iso ∧ iso ≠ [] ∧ parse otherwise iso = some t ∧
        ∀ value, value ≠ [] → parse otherwise value = some t →
          ∃ text, toInputDateTime otherwise Z value = .ok text ∧
            fromInputDateTime otherwise Z text = .ok (some iso)) ∧
    (∀ w : LocalMinute, Z.Occurs w.time ∨ ∃ c, Z.Skips c w.time) ∧
    ∀ (w : LocalMinute) (c : ℤ), Z.Skips c w.time →
      ∃ t iso, fromInputDateTime otherwise Z w.text = .ok (some iso) ∧
        toISOString (some t) = .ok iso ∧ |Z.wall t - w.time| = Z.skipped c := by
  refine ⟨?strikes, ?once, fun w => Z.occurs_or_skips w.time, ?skips⟩
  case strikes =>
    intro w hw
    have hf := Z.wall_found hw
    obtain ⟨iso, hiso⟩ : ∃ iso, toISOString (some (Z.found w.time)) = .ok iso := ⟨_, rfl⟩
    have ht := (inYears_of_wall hf.symm).timeClip
    refine ⟨iso, by rw [fromInputDateTime_text, hiso]; rfl, ?_⟩
    exact toInputDateTime_of_parse (toISOString_ne_nil hiso) (Dates.parse_toISOString ht hiso)
      hf.symm
  case once =>
    intro t hm hy honce
    have hwm : Z.wall t % 60000 = 0 := by
      unfold Zone.wall Zone.ahead
      omega
    let w : LocalMinute := ⟨civil (Z.wall t), hy, Fin.ext (by simp only [civil]; omega),
      Fin.ext (by simp only [civil]; omega)⟩
    have hw : w.time = Z.wall t := Dates.time_civil _
    obtain ⟨iso, hiso⟩ : ∃ iso, toISOString (some t) = .ok iso := ⟨_, rfl⟩
    have ht := (inYears_of_wall hw).timeClip
    refine ⟨iso, hiso, toISOString_ne_nil hiso, Dates.parse_toISOString ht hiso, ?_⟩
    intro value hne hv
    refine ⟨w.text, toInputDateTime_of_parse hne hv hw, ?_⟩
    rw [fromInputDateTime_text, hw, Z.found_wall honce, hiso]
    rfl
  case skips =>
    intro w c hs
    obtain ⟨iso, hiso⟩ : ∃ iso, toISOString (some (Z.found w.time)) = .ok iso := ⟨_, rfl⟩
    refine ⟨Z.found w.time, iso, by rw [fromInputDateTime_text, hiso]; rfl, hiso, ?_⟩
    exact Z.wall_found_of_skips hs

/-- A zone whose clock leaps from three hours behind to two on the fourth of november 2018. -/
def leaping : Zone where
  offset t := if t < 1541300400000 then -180 else -120
  within t := by split_ifs <;> decide
  apart c d hcd hc hd := by split_ifs at hc hd <;> omega

/-- What is typed within the hour the clock leaps over is read an hour back. -/
example : (fromInputDateTime (fun _ => none) leaping "2018-11-04T00:30".toList).bind (fun iso =>
    toInputDateTime (fun _ => none) leaping (iso.getD [])) = .ok "2018-11-03T23:30".toList := by
  decide +kernel

end FastKit.Panel
