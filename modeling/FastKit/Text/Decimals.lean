import Mathlib.Algebra.Group.Nat.Defs
import Mathlib.Tactic.Common

/-! # Numbers written in decimal digits

A number written in ten digits, padded with zeros to a width, and read back from the front of a
text.
-/

namespace FastKit.Text

variable {w n : ℕ} {t : List Char}

/-- A number in decimal digits. -/
def decimal (n : ℕ) : List Char := Nat.toDigits 10 n

/-- The number a text of decimal digits writes. -/
def numeral (t : List Char) : ℕ := Nat.ofDigitChars 10 t 0

/-- A number in decimal digits, with zeros before it up to a width. -/
def padded (w n : ℕ) : List Char := (decimal n).leftpad w '0'

@[simp] theorem numeral_decimal (n : ℕ) : numeral (decimal n) = n :=
  Nat.ofDigitChars_ten_toDigits

theorem numeral_append (t u : List Char) :
    numeral (t ++ u) = 10 ^ u.length * numeral t + numeral u := by
  rw [numeral, Nat.ofDigitChars_append, Nat.ofDigitChars_eq_ofDigitChars_zero]
  rfl

@[simp] theorem numeral_padded (w n : ℕ) : numeral (padded w n) = n := by
  rw [numeral, padded, List.leftpad, Nat.ofDigitChars_append, Nat.ofDigitChars_replicate_zero,
    Nat.mul_zero]
  exact numeral_decimal n

theorem length_decimal_le (h : n < 10 ^ w) (hw : 0 < w) : (decimal n).length ≤ w :=
  (Nat.length_toDigits_le_iff (by decide) hw).mpr h

theorem length_padded (h : n < 10 ^ w) (hw : 0 < w) : (padded w n).length = w := by
  rw [padded, List.length_leftpad]
  exact Nat.max_eq_left (length_decimal_le h hw)

theorem lt_length_decimal (h : 10 ^ w ≤ n) : w < (decimal n).length := by
  obtain rfl | hw := Nat.eq_zero_or_pos w
  · exact Nat.length_toDigits_pos
  · rw [← Nat.not_le, decimal, Nat.length_toDigits_le_iff (by decide) hw]
    exact Nat.not_lt_of_le h

theorem padded_of_le (h : 10 ^ w ≤ n) : padded (w + 1) n = decimal n := by
  rw [padded, List.leftpad, Nat.sub_eq_zero_of_le (lt_length_decimal h), List.replicate_zero,
    List.nil_append]

theorem isDigit_decimal (n : ℕ) : ∀ c ∈ decimal n, c.isDigit := fun _ hc =>
  Nat.isDigit_of_mem_toDigits (by decide) (by decide) hc

theorem isDigit_padded (w n : ℕ) : ∀ c ∈ padded w n, c.isDigit := by
  intro c hc
  rw [padded, List.leftpad, List.mem_append, List.mem_replicate] at hc
  obtain ⟨-, rfl⟩ | hc := hc
  · decide
  · exact isDigit_decimal n c hc

/-- The number in the first characters of a text, where they are digits, and the rest of it. -/
def field (w : ℕ) (t : List Char) : Option (ℕ × List Char) :=
  if w ≤ t.length ∧ (t.take w).all Char.isDigit then some (numeral (t.take w), t.drop w) else none

/-- The text behind one character it has to begin with. -/
def mark (c : Char) : List Char → Option (List Char)
  | [] => none
  | d :: t => if d = c then some t else none

@[simp] theorem mark_cons (c : Char) : mark c (c :: t) = some t := if_pos rfl

theorem field_padded (h : n < 10 ^ w) (hw : 0 < w) (t : List Char) :
    field w (padded w n ++ t) = some (n, t) := by
  have hl := length_padded h hw
  have hd : ((padded w n ++ t).take w).all Char.isDigit = true := by
    rw [List.take_left' hl, List.all_eq_true]
    exact isDigit_padded w n
  rw [field, if_pos ⟨by rw [List.length_append, hl]; omega, hd⟩, List.take_left' hl,
    List.drop_left' hl, numeral_padded]

/-- The number behind one character, and the rest of the text. -/
def markedField (c : Char) (w : ℕ) (t : List Char) : Option (ℕ × List Char) :=
  (mark c t).bind (field w)

theorem markedField_padded (c : Char) (h : n < 10 ^ w) (hw : 0 < w) (t : List Char) :
    markedField c w (c :: (padded w n ++ t)) = some (n, t) := by
  rw [markedField, mark_cons, Option.bind_some, field_padded h hw]

end FastKit.Text
