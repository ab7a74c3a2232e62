import FastKit.Calendar
import FastKit.Text.Base64
import FastKit.Text.Json
import Mathlib.Tactic.Common

/-! # Values handed out and read back

A value the server signs and keeps nowhere: its body in base64, a dot and the digest of the
purpose and the body. It is read back under its purpose until it expires, and what was not signed
so is read as nothing.
-/

namespace FastKit.Signing
open Text

/-- What reading a value may raise. -/
inductive Raised where
  | valueError
  | binasciiError
  | jsonDecodeError
  | keyError
  | typeError
  deriving DecidableEq

/-- What the standard library does for a value: the digest under a key, JSON in both directions,
and whether a number with a fraction is before a moment. -/
structure Library where
  hmac : ByteArray → ByteArray → List Char
  dumps : Json → List UInt8
  loads : List UInt8 → Option Json
  earlier : String → ℕ → Bool

variable (L : Library) (secretKey : List Char)

def digest (purpose body : List Char) : List Char :=
  L.hmac (encoded secretKey) (encoded (purpose ++ '.' :: body))

/-- `{**payload, "exp": expiry}` -/
def stamped (payload : Fields) (expiry : ℤ) : Fields :=
  if hasField payload "exp" then
    payload.map fun field => if field.1 = "exp" then ("exp", .int expiry) else field
  else payload ++ [("exp", .int expiry)]

/-- When a value signed at a moment ends, in whole seconds. -/
def expiryOf (ttl : ℤ) (now : ℕ) : ℤ := (now / Calendar.second : ℕ) + ttl

def bodyOf (payload : Fields) (ttl : ℤ) (now : ℕ) : List Char :=
  (Base64.encode (L.dumps (.object (stamped payload (expiryOf ttl now))))).rdropWhile (· == '=')

def sign (purpose : List Char) (payload : Fields) (ttl : ℤ) (now : ℕ) : List Char :=
  let body := bodyOf L payload ttl now
  body ++ '.' :: digest L secretKey purpose body

/-- `payload["exp"] < now().timestamp()` -/
def expired (payload : Json) (now : ℕ) : Except Raised Bool :=
  match payload with
  | .object fields =>
    match fields.lookup "exp" with
    | some (.int n) => .ok (n * Calendar.second < now)
    | some (.bool b) => .ok (b.toNat * Calendar.second < now)
    | some (.float text) => .ok (L.earlier text now)
    | some _ => .error .typeError
    | none => .error .keyError
  | _ => .error .typeError

def unsign (purpose : List Char) (value : Option (List Char)) (now : ℕ) :
    Except Raised (Option Json) := do
  let value := value.getD []
  if value = [] then return none
  let body := before '.' value
  let given := beyond '.' value
  if given = [] ∨ encoded given ≠ encoded (digest L secretKey purpose body) then return none
  if !body.all (·.toNat < 128) then .error .valueError
  let padded := body ++ List.replicate ((4 - body.length % 4) % 4) '='
  let bytes ← (Base64.decode padded).elim (.error .binasciiError) .ok
  let payload ← (L.loads bytes).elim (.error .jsonDecodeError) .ok
  if ← expired L payload now then return none
  return some payload

/-- What is assumed of the digest: different messages have different ones. -/
structure Ideal : Prop where
  injective : ∀ {key m n}, L.hmac key m = L.hmac key n → m = n
  nonempty : ∀ key m, L.hmac key m ≠ []

/-- JSON reads back what it wrote of a payload. -/
def Reads (payload : Fields) : Prop := L.loads (L.dumps (.object payload)) = some (.object payload)

structure Call where
  purpose : List Char
  payload : Fields
  ttl : ℤ
  now : ℕ

def Call.value (call : Call) : List Char := sign L secretKey call.purpose call.payload call.ttl call.now

/-- The digest a text ends in, where it is one, is of a call: nobody else computes it. -/
def Unforged (calls : List Call) (value : List Char) : Prop :=
  ∀ message, beyond '.' value = L.hmac (encoded secretKey) message → ∃ call ∈ calls,
    message = encoded (call.purpose ++ '.' :: bodyOf L call.payload call.ttl call.now)

section Laws
variable {L} {secretKey} {purpose : List Char} {payload : Fields} {ttl : ℤ} {now later : ℕ}

theorem lookup_stamped (payload : Fields) (n : ℤ) :
    (stamped payload n).lookup "exp" = some (.int n) := by
  unfold stamped hasField
  induction payload with
  | nil => rfl
  | cons field rest ih =>
    obtain ⟨name, value⟩ := field
    by_cases hname : name = "exp"
    · subst hname
      simp
    · have hne : ("exp" == name) = false := beq_eq_false_iff_ne.mpr (Ne.symm hname)
      simp only [List.lookup_cons, hne] at ih ⊢
      split_ifs at ih ⊢ with hfield
      · simpa [List.lookup_cons, hname, hne] using ih
      · simpa [List.lookup_cons, hne] using ih

theorem bodyOf_eq : bodyOf L payload ttl now =
    (Base64.sextets (L.dumps (.object (stamped payload (expiryOf ttl now))))).map Base64.letter :=
  Base64.rstrip_encode _

theorem bodyOf_mem {c : Char} (h : c ∈ bodyOf L payload ttl now) : c ∈ Base64.alphabet :=
  Base64.letters_mem (bodyOf_eq (L := L) ▸ h)

theorem dot_not_mem_bodyOf : '.' ∉ bodyOf L payload ttl now := fun h =>
  absurd (bodyOf_mem h) (by decide)

/-- A value is read back under its purpose, until the second it ends in. -/
theorem unsign_sign (hL : Ideal L) (hreads : Reads L (stamped payload (expiryOf ttl now))) :
    unsign L secretKey purpose (some (sign L secretKey purpose payload ttl now)) later =
      .ok (if expiryOf ttl now * Calendar.second < later then none
        else some (.object (stamped payload (expiryOf ttl now)))) := by
  have hbody : before '.' (sign L secretKey purpose payload ttl now) = bodyOf L payload ttl now :=
    before_append dot_not_mem_bodyOf
  have hgiven : beyond '.' (sign L secretKey purpose payload ttl now) =
      digest L secretKey purpose (bodyOf L payload ttl now) := beyond_append dot_not_mem_bodyOf
  have hne : sign L secretKey purpose payload ttl now ≠ [] := by
    unfold sign
    simp
  have hascii : (bodyOf L payload ttl now).all (·.toNat < 128) = true := by
    have halphabet : Base64.alphabet.all (·.toNat < 128) = true := by decide +kernel
    rw [List.all_eq_true] at halphabet ⊢
    exact fun c hc => halphabet c (bodyOf_mem hc)
  have hdecode : Base64.decode (bodyOf L payload ttl now ++
      List.replicate ((4 - (bodyOf L payload ttl now).length % 4) % 4) '=') =
      some (L.dumps (.object (stamped payload (expiryOf ttl now)))) := by
    rw [bodyOf_eq]
    exact Base64.decode_padded _
  have hexpired : expired L (.object (stamped payload (expiryOf ttl now))) later =
      .ok (expiryOf ttl now * Calendar.second < later) := by
    rw [expired, lookup_stamped]
  unfold Reads at hreads
  unfold unsign
  simp only [Option.getD_some, hne, hbody, hgiven, hL.nonempty _ _, digest, hascii, hdecode]
  simp [bind, Except.bind, pure, Except.pure, hreads, hexpired]
  split_ifs <;> rfl

/-- What was not signed under a purpose is read as nothing. -/
theorem unsign_other {calls : List Call} {value : List Char} (hpurpose : '.' ∉ purpose)
    (hcalls : ∀ call ∈ calls, '.' ∉ call.purpose) (hunforged : Unforged L secretKey calls value)
    (hother : ∀ call ∈ calls, call.purpose = purpose → call.value L secretKey ≠ value) :
    unsign L secretKey purpose (some value) later = .ok none := by
  unfold unsign
  simp only [Option.getD_some]
  by_cases hnil : value = []
  · rw [if_pos hnil]
    rfl
  · rw [if_neg hnil, if_pos]
    · rfl
    · by_contra hgiven
      rw [not_or, not_not, encoded_inj] at hgiven
      obtain ⟨hgiven, hdigest⟩ := hgiven
      have hdot : '.' ∈ value := by
        by_contra hdot
        exact hgiven (beyond_of_not_mem hdot)
      obtain ⟨call, hcall, hmessage⟩ := hunforged _ hdigest
      rw [encoded_inj] at hmessage
      -- a purpose has no dot, so the first one of what was signed stands behind it
      have hsame : call.purpose = purpose := by
        rw [← before_append (hcalls call hcall), ← hmessage, before_append hpurpose]
      have hbody : before '.' value = bodyOf L call.payload call.ttl call.now := by
        calc before '.' value
            _ = beyond '.' (purpose ++ '.' :: before '.' value) := (beyond_append hpurpose).symm
            _ = bodyOf L call.payload call.ttl call.now := by
              rw [hmessage, beyond_append (hcalls call hcall)]
      refine hother call hcall hsame ?_
      rw [← before_append_beyond hdot, hdigest, hbody, ← hsame]
      rfl

variable (secretKey) in
/-- A signed value is read under its purpose until the second its lifetime ends in and not after
it, and whatever was not signed under the purpose is read as nothing. -/
theorem signed_value (hL : Ideal L) (hpurpose : '.' ∉ purpose) :
    (∀ (payload : Fields) (ttl : ℤ) (now later : ℕ),
      Reads L (stamped payload (expiryOf ttl now)) →
      unsign L secretKey purpose (some (sign L secretKey purpose payload ttl now)) later =
        .ok (if expiryOf ttl now * Calendar.second < later then none
          else some (.object (stamped payload (expiryOf ttl now))))) ∧
    (∀ (calls : List Call) (value : List Char) (later : ℕ),
      (∀ call ∈ calls, '.' ∉ call.purpose) → Unforged L secretKey calls value →
      (∀ call ∈ calls, call.purpose = purpose → call.value L secretKey ≠ value) →
      unsign L secretKey purpose (some value) later = .ok none) ∧
    ∀ later : ℕ, unsign L secretKey purpose none later = .ok none :=
  ⟨fun _ _ _ _ h => unsign_sign hL h,
    fun _ _ _ hcalls hunforged hother => unsign_other hpurpose hcalls hunforged hother,
    fun _ => rfl⟩

end Laws

namespace Sample

/-- A visitor as the site remembers one, until the 160th second. -/
def visitor : Fields := [("visitor", .string "x"), ("exp", .int 160)]

def written : List UInt8 := "\x7b\"visitor\":\"x\",\"exp\":160\x7d".toUTF8.data.toList

/-- A digest that is the message itself, and JSON of the one visitor. -/
def library : Library where
  hmac := fun _ message => 'x' :: message.data.toList.map fun b => Char.ofNat b.toNat
  dumps := fun _ => written
  loads := fun bytes => if bytes = written then some (.object visitor) else none
  earlier := fun _ _ => false

theorem ideal : Ideal library where
  injective := by
    intro key m n h
    have hback : ∀ n : Fin 256, (Char.ofNat n).toNat = n := by decide +kernel
    have hinj : Function.Injective fun b : UInt8 => Char.ofNat b.toNat := by
      intro a b hab
      have hnat : (Char.ofNat a.toNat).toNat = (Char.ofNat b.toNat).toNat := congrArg Char.toNat hab
      exact UInt8.toNat.inj ((hback ⟨a.toNat, a.toNat_lt⟩).symm.trans (hnat.trans (hback ⟨b.toNat, b.toNat_lt⟩)))
    have hlist := hinj.list_map (List.cons.inj h).2
    exact ByteArray.ext (Array.toList_inj.mp hlist)
  nonempty := fun _ _ => List.cons_ne_nil _ _

theorem reads : Reads library (stamped [("visitor", .string "x")] (expiryOf 60 100900000)) := by
  rw [Reads, library]
  simp only [if_true]
  rfl

end Sample

/-- A visitor signed for a minute is read in its last second, and a text nobody signed is not. -/
theorem signed_value_visitor :
    unsign Sample.library [] "visitor".toList (some (sign Sample.library [] "visitor".toList
      [("visitor", .string "x")] 60 100900000)) 160000000 = .ok (some (.object Sample.visitor)) ∧
    unsign Sample.library [] "visitor".toList (some "abc".toList) 160000000 = .ok none := by
  have hlaws := signed_value [] Sample.ideal (show '.' ∉ "visitor".toList by decide)
  refine ⟨(hlaws.1 _ _ _ _ Sample.reads).trans ?_, hlaws.2.1 [] _ _ (by simp) ?_ (by simp)⟩
  · rfl
  · intro message h
    exact absurd h.symm (List.cons_ne_nil _ _)

/-- The lifetime is counted from the whole second of the signing, so a value signed later in it
ends before its lifetime does. -/
theorem signed_value_ends_early : ¬∀ (L : Library) (secretKey purpose : List Char)
    (payload : Fields) (ttl : ℤ) (now later : ℕ), Ideal L → '.' ∉ purpose →
    Reads L (stamped payload (expiryOf ttl now)) → now ≤ later →
    (later : ℤ) ≤ now + ttl * Calendar.second →
    unsign L secretKey purpose (some (sign L secretKey purpose payload ttl now)) later =
      .ok (some (.object (stamped payload (expiryOf ttl now)))) := by
  intro h
  have hread := h Sample.library [] [] [("visitor", .string "x")] 60 100900000 160500000
    Sample.ideal (by decide) Sample.reads (by decide) (by decide)
  rw [unsign_sign Sample.ideal Sample.reads, if_pos (by decide)] at hread
  cases hread

end FastKit.Signing
