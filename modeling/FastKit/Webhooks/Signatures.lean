import FastKit.Text.Numerals
import Mathlib.Algebra.Group.Int.Defs
import Mathlib.Tactic.Common

/-! # The signature of a notice

Both gateways sign what they post with a header of parts, a moment and the codes computed over
it and the body. What the header is read as, whatever the order and the state of its parts, decides
whether the notice is believed.
-/

namespace FastKit
open Text

inductive SignatureFault where
  | valueError
  | overflowError
  | authenticationError (key : String)
  deriving DecidableEq

/-- The refusal of a notice whose signature does not hold. -/
def signatureInvalid : SignatureFault := .authenticationError "error.webhook-signature-invalid"

variable (U : Characters)

def stampOf (moment : List Char) : Except SignatureFault ℤ :=
  match integer U moment with
  | some n => .ok n
  | none => .error .valueError

/-- The instants a date is made of, in seconds since the epoch: the years 1 to 9999. -/
def InCalendar (n : ℤ) : Prop := -62135596800 ≤ n ∧ n ≤ 253402300799

instance (n : ℤ) : Decidable (InCalendar n) := inferInstanceAs (Decidable (_ ∧ _))

/-- `datetime.fromtimestamp(n, tz=timezone.utc)`, in microseconds since the epoch. -/
def fromtimestamp (n : ℤ) : Except SignatureFault ℤ :=
  if n < -2 ^ 63 ∨ 2 ^ 63 ≤ n then .error .overflowError
  else if InCalendar n then .ok (n * 1000000)
  else .error .valueError

def tolerance : ℕ := 5 * 60 * 1000000

/-- Whether the stamp inside a signature is of now. -/
def fresh (now : ℤ) (moment : List Char) : Except SignatureFault Bool :=
  match stampOf U moment >>= fromtimestamp with
  | .ok stamped => .ok ((now - stamped).natAbs ≤ tolerance)
  | .error .valueError => .ok false
  | .error .overflowError => .ok false
  | .error e => .error e

/-- The bytes are compared and never the text. -/
def codeMatches (given expected : List Char) : Bool := encoded given = encoded expected

/-- The header both gateways sign with: its moment, which a later one replaces, and its codes. -/
def signatureParts (header : List Char) : Option (List Char) × List (List Char) :=
  (header.splitOn ',').foldl (fun (moment, signatures) piece =>
    if '=' ∈ piece then
      let scheme := strip U.blank (before '=' piece)
      let value := strip U.blank (beyond '=' piece)
      if scheme = "t".toList then (some value, signatures)
      else if scheme = "v1".toList then (moment, signatures ++ [value])
      else (moment, signatures)
    else (moment, signatures)) (none, [])

section Verify
variable (hmac : ByteArray → ByteArray → List Char) (now : ℤ) (secret header : List Char)
  (body : ByteArray)

/-- What a gateway signs a moment and a body with. -/
def expectedCode (moment : List Char) : List Char :=
  hmac (encoded secret) (encoded (moment ++ ['.']) ++ body)

def RevenueCat.verify : Except SignatureFault Unit := do
  let (moment, signatures) := signatureParts U header
  let moment := moment.getD []
  if moment = [] ∨ signatures = [] then .error signatureInvalid
  else if !(← fresh U now moment) then .error signatureInvalid
  else if !signatures.any (codeMatches · (expectedCode hmac secret body moment)) then
    .error signatureInvalid
  else pure ()

def Stripe.verify : Except SignatureFault Unit := do
  let (moment, signatures) := signatureParts U header
  let moment := moment.getD []
  if moment = [] ∨ signatures = [] then .error signatureInvalid
  if !(← fresh U now moment) then .error signatureInvalid
  if !signatures.any (codeMatches · (expectedCode hmac secret body moment)) then
    .error signatureInvalid

/-- The values some parts have for a scheme, in their order: a part is its scheme, what stands
before its first equals sign, and its value, what stands beyond. -/
def valuesIn (scheme : String) (pieces : List (List Char)) : List (List Char) :=
  (pieces.filter fun piece =>
    decide ('=' ∈ piece) && strip U.blank (before '=' piece) == scheme.toList).map
      fun piece => strip U.blank (beyond '=' piece)

/-- The values a header has for a scheme. -/
def valuesOf (scheme : String) : List (List Char) := valuesIn U scheme (header.splitOn ',')

/-- The text is a whole number, that of a moment within the tolerance of now. -/
def Timely (moment : List Char) : Prop :=
  ∃ n, integer U moment = some n ∧ InCalendar n ∧ (now - n * 1000000).natAbs ≤ tolerance

/-- What a notice is believed by: the last moment of its header is of now, and one of its codes is
that of the moment, a dot and the body under the secret. -/
def Believed : Prop := ∃ moment, (valuesOf U header "t").getLast? = some moment ∧
  Timely U now moment ∧ ∃ given ∈ valuesOf U header "v1",
    given = hmac (encoded secret) (encoded (moment ++ ['.']) ++ body)

end Verify

section Believes
variable {U} {hmac : ByteArray → ByteArray → List Char} {now : ℤ} {secret header moment : List Char}
  {body : ByteArray}

theorem codeMatches_iff {given expected : List Char} :
    codeMatches given expected = true ↔ given = expected := by
  rw [codeMatches, decide_eq_true_eq, encoded_inj]

/-- A stamp is of now where it reads as such a moment, and no text raises. -/
theorem fresh_eq [Decidable (Timely U now moment)] :
    fresh U now moment = .ok (decide (Timely U now moment)) := by
  unfold fresh stampOf
  cases hn : integer U moment with
  | none =>
    have hno : ¬Timely U now moment := by
      rintro ⟨n, h, -⟩
      rw [hn] at h
      cases h
    simp [hno, bind, Except.bind]
  | some n =>
    have hiff : Timely U now moment ↔ InCalendar n ∧ (now - n * 1000000).natAbs ≤ tolerance := by
      constructor
      · rintro ⟨k, hk, h⟩
        obtain rfl := Option.some.inj (hn.symm.trans hk)
        exact h
      · exact fun h => ⟨n, hn, h⟩
    simp only [bind, Except.bind, fromtimestamp]
    split_ifs with hrange hcalendar
    · have hno : ¬InCalendar n := by
        unfold InCalendar
        omega
      simp [hiff, hno]
    · simp [hiff, hcalendar]
    · simp [hiff, hcalendar]

/-- What the parts of a header are read as, after some of them were. -/
theorem foldl_parts (pieces : List (List Char)) (read : Option (List Char) × List (List Char)) :
    pieces.foldl (fun (moment, signatures) piece =>
      if '=' ∈ piece then
        let scheme := strip U.blank (before '=' piece)
        let value := strip U.blank (beyond '=' piece)
        if scheme = "t".toList then (some value, signatures)
        else if scheme = "v1".toList then (moment, signatures ++ [value])
        else (moment, signatures)
      else (moment, signatures)) read =
    ((valuesIn U "t" pieces).getLast?.or read.1, read.2 ++ valuesIn U "v1" pieces) := by
  induction pieces generalizing read with
  | nil => simp [valuesIn]
  | cons piece rest ih =>
    obtain ⟨moment, signatures⟩ := read
    have hne : "t".toList ≠ "v1".toList := by decide
    rw [List.foldl_cons, ih]
    simp only [valuesIn, List.filter_cons]
    by_cases heq : '=' ∈ piece
    · by_cases ht : strip U.blank (before '=' piece) = "t".toList
      · simp only [heq, ht, decide_true, Bool.true_and, beq_self_eq_true, if_true,
          beq_eq_false_iff_ne.mpr hne, Bool.false_eq_true, if_false, List.map_cons, List.getLast?_cons]
        cases List.getLast? _ <;> rfl
      · by_cases hv : strip U.blank (before '=' piece) = "v1".toList
        · simp only [heq, hv, decide_true, Bool.true_and, beq_self_eq_true, if_true,
            beq_eq_false_iff_ne.mpr hne.symm, Bool.false_eq_true, if_false, hne.symm, List.map_cons,
            List.append_assoc, List.singleton_append]
        · simp only [heq, ht, hv, decide_true, Bool.true_and, if_true, beq_eq_false_iff_ne.mpr ht,
            beq_eq_false_iff_ne.mpr hv, Bool.false_eq_true, if_false]
    · simp only [heq, decide_false, Bool.false_and, Bool.false_eq_true, if_false]

theorem signatureParts_eq :
    signatureParts U header = ((valuesOf U header "t").getLast?, valuesOf U header "v1") := by
  rw [signatureParts, foldl_parts, Option.or_none, List.nil_append]
  rfl

theorem not_timely_nil : ¬Timely U now [] := by
  rintro ⟨n, h, -⟩
  simp [integer, strip, digits] at h

/-- Both gateways check a signature alike. -/
theorem Stripe.verify_eq :
    Stripe.verify U hmac now secret header body = RevenueCat.verify U hmac now secret header body := by
  unfold Stripe.verify RevenueCat.verify
  dsimp only
  by_cases hempty : (signatureParts U header).1.getD [] = [] ∨ (signatureParts U header).2 = []
  · simp only [if_pos hempty]
    rfl
  · simp only [if_neg hempty, bind, Except.bind, pure, Except.pure]

theorem RevenueCat.verify_eq [Decidable (Believed U hmac now secret header body)] :
    RevenueCat.verify U hmac now secret header body =
      if Believed U hmac now secret header body then .ok () else .error signatureInvalid := by
  unfold RevenueCat.verify
  rw [signatureParts_eq]
  dsimp only
  cases hlast : (valuesOf U header "t").getLast? with
  | none =>
    rw [Option.getD_none, if_pos (.inl rfl), if_neg]
    rintro ⟨moment, hmoment, -⟩
    rw [hlast] at hmoment
    cases hmoment
  | some moment =>
    have hthis : ∀ u, (valuesOf U header "t").getLast? = some u → u = moment := fun u hu =>
      (Option.some.inj (hlast.symm.trans hu)).symm
    rw [Option.getD_some]
    by_cases hempty : moment = [] ∨ valuesOf U header "v1" = []
    · rw [if_pos hempty, if_neg]
      rintro ⟨u, hu, htimely, given, hgiven, -⟩
      obtain rfl := hthis u hu
      rcases hempty with rfl | hnone
      · exact not_timely_nil htimely
      · rw [hnone] at hgiven
        cases hgiven
    · classical
      rw [if_neg hempty, fresh_eq]
      have hiff : Believed U hmac now secret header body ↔ Timely U now moment ∧
          (valuesOf U header "v1").any (codeMatches · (expectedCode hmac secret body moment)) = true := by
        constructor
        · rintro ⟨u, hu, htimely, given, hgiven, hcode⟩
          obtain rfl := hthis u hu
          exact ⟨htimely, List.any_eq_true.mpr ⟨given, hgiven, codeMatches_iff.mpr hcode⟩⟩
        · rintro ⟨htimely, hany⟩
          obtain ⟨given, hgiven, hcode⟩ := List.any_eq_true.mp hany
          exact ⟨moment, hlast, htimely, given, hgiven, codeMatches_iff.mp hcode⟩
      simp only [hiff, bind, Except.bind]
      by_cases htimely : Timely U now moment
      · cases (valuesOf U header "v1").any (codeMatches · (expectedCode hmac secret body moment)) <;>
          simp [htimely, pure, Except.pure]
      · simp [htimely]

/-- Either gateway accepts a notice whose signature holds, and refuses every other one, whatever
the header and the body are. -/
theorem believed_or_refused (U : Characters) (hmac : ByteArray → ByteArray → List Char) (now : ℤ)
    (secret header : List Char) (body : ByteArray) :
    (Believed U hmac now secret header body ∧
      RevenueCat.verify U hmac now secret header body = .ok () ∧
      Stripe.verify U hmac now secret header body = .ok ()) ∨
    (¬Believed U hmac now secret header body ∧
      RevenueCat.verify U hmac now secret header body = .error signatureInvalid ∧
      Stripe.verify U hmac now secret header body = .error signatureInvalid) := by
  classical
  rw [Stripe.verify_eq, RevenueCat.verify_eq]
  by_cases h : Believed U hmac now secret header body
  · exact .inl ⟨h, if_pos h, if_pos h⟩
  · exact .inr ⟨h, if_neg h, if_neg h⟩

end Believes
end FastKit
