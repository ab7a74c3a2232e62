import FastKit.Models.Walks
import FastKit.Text.Collapse
import FastKit.Text.Cuts
import FastKit.Text.Decimals
import FastKit.Text.Patterns

/-! # Names of stored files

What a key may carry of the name somebody uploaded, and the UUID by which a key is found. A text
is a list of its characters.
-/

namespace FastKit.Uploads
open Text

/-- What the program asks of the Unicode tables: the compatibility decomposition of a character,
and a text in lowercase. A dot is its own lowercase and touches nothing beside it. -/
structure Unicode where
  nfkd : Char → List Char
  lower : List Char → List Char
  lower_nil : lower [] = []
  lower_dot : ∀ t, lower ('.' :: t) = '.' :: lower t

def lowerHex (c : Char) : Bool := c.isDigit || ('a' ≤ c && c ≤ 'f')

def hexDigit (c : Char) : Bool := lowerHex c || ('A' ≤ c && c ≤ 'F')

def dash (c : Char) : Bool := c == '-'

/-- Groups of hexadecimal digits, a dash between two of them. -/
def groups : List ℕ → Pattern Char
  | [] => []
  | [n] => List.replicate n hexDigit
  | n :: rest => List.replicate n hexDigit ++ dash :: groups rest

def named : Pattern Char := groups [8, 4, 4, 4, 12]

/-- A text `uuid4` answers. -/
structure Uuid where
  text : List Char
  fits : Fits named text
  lowered : text.map Char.toLower = text

/-- Which stored files a value mentions, each as often as it does: the source answers their set. -/
def uuidsIn (value : List Char) : List (List Char) :=
  (occurrences named 0 value).map (List.map Char.toLower)

theorem named_cases {p : Char → Bool} (h : p ∈ named) : p = hexDigit ∨ p = dash := by
  simp only [named, groups, List.mem_append, List.mem_cons, List.mem_replicate] at h
  tauto

theorem toLower_hexDigit {c : Char} (h : hexDigit c = true) :
    hexDigit c.toLower = true ∧ c.toLower.toLower = c.toLower := by
  have hc : c = Char.ofNat c.toNat := (Char.ofNat_toNat c).symm
  have hn : (48 ≤ c.toNat ∧ c.toNat ≤ 57) ∨ (97 ≤ c.toNat ∧ c.toNat ≤ 102) ∨
      (65 ≤ c.toNat ∧ c.toNat ≤ 70) := by
    simpa [hexDigit, lowerHex, Char.isDigit, Char.le_def, UInt32.le_iff_toNat_le, or_assoc] using h
  generalize c.toNat = n at hc hn
  subst hc
  rcases hn with ⟨hl, hu⟩ | ⟨hl, hu⟩ | ⟨hl, hu⟩ <;> interval_cases n <;> decide

theorem toLower_named {p : Char → Bool} {c : Char} (h : p ∈ named) (hc : p c = true) :
    p c.toLower = true ∧ c.toLower.toLower = c.toLower := by
  rcases named_cases h with rfl | rfl
  · exact toLower_hexDigit hc
  · obtain rfl : c = '-' := beq_iff_eq.mp hc
    decide

/-- A UUID a value mentions mentions itself. -/
theorem uuidsIn_uuid {u value : List Char} (h : u ∈ uuidsIn value) : uuidsIn u = [u] := by
  obtain ⟨w, hw, rfl⟩ := List.mem_map.mp h
  have hfits := fits_of_mem_occurrences hw
  have hlow : Fits named (w.map Char.toLower) := hfits.map fun p hp c hc => (toLower_named hp hc).1
  rw [uuidsIn, occurrences_of_fits (List.ne_nil_of_length_pos (by decide)) hlow, List.map_singleton,
    List.map_map]
  refine congrArg (fun t => [t]) (List.map_congr_left fun c hc => ?_)
  obtain ⟨p, hp, hpc⟩ := hfits.exists_of_mem hc
  exact (toLower_named hp hpc).2

/-- A text without its accents and in lowercase. -/
def plain (U : Unicode) (value : List Char) : List Char :=
  ((value.flatMap U.nfkd).filter (fun c => c.toNat < 128)).map Char.toLower

/-- What `SLUG_PATTERN` leaves as it is. -/
def slugChar (c : Char) : Bool := c.isDigit || ('a' ≤ c && c ≤ 'z')

def slugify (U : Unicode) (value fallback : List Char) (maxLength : Option ℕ) : List Char :=
  let slug := strip dash (collapsed slugChar '-' false (plain U value))
  let cut := match maxLength with
    | some limit => (slug.take limit).rdropWhile dash
    | none => slug
  if cut = [] then fallback else cut

/-- The name and the extension of a file, which a name of leading dots has none of. -/
def splitext (filename : List Char) : List Char × List Char :=
  let other := fun c => c != '.' && c != '/'
  match filename.reverse.dropWhile other with
  | '.' :: rest =>
    if (rest.takeWhile (· != '/')).any (· != '.') then
      (rest.reverse, '.' :: (filename.reverse.takeWhile other).reverse)
    else (filename, [])
  | _ => (filename, [])

def nameLimit : ℕ := 80

/-- The name somebody uploaded, reduced to what a key may carry. -/
def readableName (U : Unicode) (filename : List Char) : List Char :=
  slugify U (replaced named '-' 0 (splitext filename).1) "file".toList (some nameLimit)

inductive Naming where
  | uuid | original
  deriving DecidableEq, Repr

/-- `%Y/%m/%d` -/
def datePath (moment : ℕ) : List Char :=
  let d := moment / Calendar.day
  padded 4 (Calendar.monthOf d / 12 + 1) ++ '/' :: padded 2 (Calendar.monthOf d % 12 + 1) ++
    '/' :: padded 2 (Calendar.dayOfMonth d + 1)

/-- The key of a stored file, with the UUID as a folder where the name is kept. -/
def buildKey (U : Unicode) (folder filename : List Char) (naming : Naming) (moment : ℕ)
    (token : Uuid) : List Char :=
  let extension := U.lower (splitext filename).2
  match naming with
  | .original => folder ++ '/' :: datePath moment ++ '/' :: token.text ++
      '/' :: readableName U filename ++ extension
  | .uuid => folder ++ '/' :: datePath moment ++ '/' :: token.text ++ extension

/-- Where one purpose is stored, what it accepts and what it is called. -/
structure UploadRule where
  folder : List Char
  extensions : List (List Char)
  naming : Naming

def UploadRule.accepts (rule : UploadRule) (U : Unicode) (filename : List Char) : Prop :=
  U.lower (splitext filename).2 ∈ rule.extensions

instance (rule : UploadRule) (U : Unicode) (filename : List Char) :
    Decidable (rule.accepts U filename) := inferInstanceAs (Decidable (_ ∈ _))

end FastKit.Uploads
