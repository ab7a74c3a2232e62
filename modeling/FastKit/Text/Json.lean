import Mathlib.Data.Int.Notation
import Mathlib.Tactic.Common

/-! # Values of a JSON text

A value as the language holds it once it was parsed, and the text it is turned into. The fields
of an object stand in the order they were written.
-/

namespace FastKit.Text

inductive Json where
  | null
  | bool (b : Bool)
  | int (n : ℤ)
  /-- A number with a fraction or an exponent, by the text the language has for it. -/
  | float (text : String)
  | string (text : String)
  | array (elements : List Json)
  | object (fields : List (String × Json))

/-- The fields of an object. -/
abbrev Fields := List (String × Json)

/-- `fields.get(name)`, which answers null for a field that is not there. -/
def fieldOf (fields : Fields) (name : String) : Json := (fields.lookup name).getD .null

def hasField (fields : Fields) (name : String) : Bool := (fields.lookup name).isSome

namespace Json

def truthy : Json → Bool
  | null => false
  | bool b => b
  | int n => n != 0
  | float text => text != "0.0" && text != "-0.0"
  | string text => text != ""
  | array elements => !elements.isEmpty
  | object fields => !fields.isEmpty

def isString : Json → Bool
  | string _ => true
  | _ => false

mutual

/-- `repr(value)`, with how a text is put into quotes. -/
def repr (quoted : String → String) : Json → String
  | null => "None"
  | bool b => if b then "True" else "False"
  | int n => toString n
  | float text => text
  | string text => quoted text
  | array elements => "[" ++ ", ".intercalate (reprs quoted elements) ++ "]"
  | object fields => "\x7b" ++ ", ".intercalate (reprFields quoted fields) ++ "\x7d"

def reprs (quoted : String → String) : List Json → List String
  | [] => []
  | value :: rest => value.repr quoted :: reprs quoted rest

def reprFields (quoted : String → String) : List (String × Json) → List String
  | [] => []
  | (name, value) :: rest =>
    (quoted name ++ ": " ++ value.repr quoted) :: reprFields quoted rest

end

def str (quoted : String → String) : Json → String
  | string text => text
  | value => value.repr quoted

def strOr (quoted : String → String) (value : Json) : String :=
  if value.truthy then value.str quoted else ""

end Json
end FastKit.Text
