import FastKit.Text.Cuts
import Mathlib.Data.Int.Notation

/-! # Texts read as whole numbers

How the language reads a text as a whole number: blanks around it, a sign, and decimal digits of
any script, an underscore between two of them.
-/

namespace FastKit.Text

/-- What the language makes of characters: which are blank, and which are decimal digits. -/
structure Characters where
  blank : Char → Bool
  decimal : Char → Option (Fin 10)

def ascii : Characters where
  blank := fun c => c == ' ' || ('\t' ≤ c && c ≤ '\r') || ('\x1c' ≤ c && c ≤ '\x1f')
  decimal := fun c => if h : c.toNat - '0'.toNat < 10 ∧ '0' ≤ c then some ⟨_, h.1⟩ else none

/-- The most digits a text is read as a number with. -/
def maxDigits : ℕ := 4300

/-- The digits of a text, one at least where `first` says that none was read yet. -/
def digits (U : Characters) (first : Bool) : List Char → Option (List (Fin 10))
  | [] => if first then none else some []
  | c :: t =>
    match U.decimal c with
    | some d => (digits U false t).map (d :: ·)
    | none => if !first && c == '_' then digits U true t else none

def decimalValue (digits : List (Fin 10)) : ℕ := digits.foldl (fun n d => 10 * n + d) 0

/-- `int(text)`, where the language has a number for it. -/
def integer (U : Characters) (t : List Char) : Option ℤ :=
  let t := strip U.blank t
  let signed : Bool × List Char :=
    match t with
    | '-' :: rest => (true, rest)
    | '+' :: rest => (false, rest)
    | _ => (false, t)
  match digits U true signed.2 with
  | some ds =>
    if maxDigits < ds.length then none
    else some (if signed.1 then -(decimalValue ds : ℤ) else decimalValue ds)
  | none => none

end FastKit.Text
