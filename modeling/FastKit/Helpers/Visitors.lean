import FastKit.Helpers.Signing
import Mathlib.Data.List.Sort
import Mathlib.Tactic.FinCases

/-! # What a browser carries signed

A consent, the name a reader is counted by, a captcha and the messages of a page are signed values
of one key, each under a purpose of its own. What this server hands out and what it makes of what
comes back are here; what comes back as anything was handed out.
-/

namespace FastKit.Signing
open Text

/-- What the language does for the values that come back: whether a number with a fraction equals
a whole one, how a text is put into quotes, and how an answer is trimmed and raised. -/
structure Reader where
  equals : String → ℤ → Bool
  quoted : String → String
  normal : List Char → List Char

inductive ConsentCategory where
  | necessary | preferences | analytics | marketing
  deriving DecidableEq

def ConsentCategory.str : ConsentCategory → String
  | necessary => "necessary"
  | preferences => "preferences"
  | analytics => "analytics"
  | marketing => "marketing"

structure ConsentSettings where
  version : ℤ
  optional : List ConsentCategory
  maxAge : ℤ

structure Consent where
  allowed : List ConsentCategory
  answered : Bool
  deriving DecidableEq

/-- `Consent()` -/
def Consent.unasked : Consent := ⟨[], false⟩

variable (L : Library) (R : Reader) (secretKey : List Char)

def equalsInt : Json → ℤ → Bool
  | .int n, v => n == v
  | .bool b, v => (b.toNat : ℤ) == v
  | .float text, v => R.equals text v
  | _, _ => false

/-- A value a set may hold. -/
def hashable : Json → Bool
  | .array _ => false
  | .object _ => false
  | _ => true

def asText : Json → Option String
  | .string text => some text
  | _ => none

def members : Json → Except Raised (List String)
  | .array elements =>
    if elements.all hashable then .ok (elements.filterMap asText) else .error .typeError
  | .object fields => .ok (fields.map (·.1))
  | .string text => .ok (text.toList.map String.singleton)
  | _ => .error .typeError

/-- `payload.get(name, default)` of what was read back, which is an object. -/
def getField (payload : Json) (name : String) (default : Json) : Json :=
  match payload with
  | .object fields => (fields.lookup name).getD default
  | _ => default

def given (S : ConsentSettings) (cookie : Option (List Char)) (now : ℕ) : Except Raised Consent := do
  match ← unsign L secretKey "consent".toList cookie now with
  | none => .ok Consent.unasked
  | some payload =>
    if !payload.truthy || !equalsInt R (getField payload "version" .null) S.version then
      .ok Consent.unasked
    else
      let named ← members (getField payload "allowed" (.array []))
      .ok ⟨S.optional.filter (fun category => named.contains category.str), true⟩

/-- `sorted(str(category) for category in allowed)` -/
def sortedNames (allowed : List ConsentCategory) : List String :=
  (allowed.map ConsentCategory.str).insertionSort (· ≤ ·)

def consentPayload (S : ConsentSettings) (allowed : List ConsentCategory) : Fields :=
  [("version", .int S.version), ("allowed", .array ((sortedNames allowed).map .string))]

def rememberConsent (S : ConsentSettings) (allowed : List ConsentCategory) (now : ℕ) : List Char :=
  sign L secretKey "consent".toList (consentPayload S allowed) S.maxAge now

def wanted (S : ConsentSettings) (form : String → Bool) (action : String) : List ConsentCategory :=
  if action = "accept" then S.optional
  else if action = "reject" then []
  else S.optional.filter (fun category => form category.str)

/-- `visitor.minted`, of the name that was drawn. -/
def minted (name : String) (maxAge : ℤ) (now : ℕ) : List Char :=
  sign L secretKey "visitor".toList [("visitor", .string name)] maxAge now

def named (value : Option (List Char)) (now : ℕ) : Except Raised (Option Json) := do
  match ← unsign L secretKey "visitor".toList value now with
  | none => .ok none
  | some payload =>
    match getField payload "visitor" .null with
    | .null => .ok none
    | name => .ok (some name)

/-- `visitor.carried`, of the name that would be drawn. -/
def carried (cookie : Option (List Char)) (drawn : String) (maxAge : ℤ) (now : ℕ) :
    Except Raised (List Char) := do
  match ← named L secretKey cookie now with
  | some _ => .ok (cookie.getD [])
  | none => .ok (minted L secretKey drawn maxAge now)

structure Carrier where
  consent : Option (List Char)
  visitor : Option (List Char)
  body : Option (List Char)

def counted (S : ConsentSettings) (request : Carrier) (now : ℕ) : Except Raised (Option Json) := do
  let answer ← given L R secretKey S request.consent now
  if answer.allowed.contains .analytics then named L secretKey request.visitor now
  else .ok none

/-- `visitor.counted(request) or visitor.named(body.visitor)` -/
def who (S : ConsentSettings) (request : Carrier) (now : ℕ) : Except Raised (Option Json) := do
  match ← counted L R secretKey S request now with
  | some name => if name.truthy then .ok (some name) else named L secretKey request.body now
  | none => named L secretKey request.body now

def proof (nonce word : List Char) : List Char :=
  digest L secretKey "captcha-word".toList (nonce ++ '.' :: word)

/-- The token `ImageCaptcha.issue` hands out for a nonce and a word. -/
def issueCaptcha (nonce word : List Char) (ttl : ℤ) (now : ℕ) : List Char :=
  sign L secretKey "captcha".toList [("nonce", .string (String.ofList nonce)),
    ("proof", .string (String.ofList (proof L secretKey nonce word)))] ttl now

def required (payload : Json) (name : String) : Except Raised Json :=
  match payload with
  | .object fields => (fields.lookup name).elim (.error .keyError) .ok
  | _ => .error .typeError

/-- `hmac.compare_digest(given, expected)`, which compares texts of ASCII characters alone. -/
def compareDigest (given : Json) (expected : List Char) : Except Raised Bool :=
  match given with
  | .string text =>
    if text.toList.all (·.toNat < 128) && expected.all (·.toNat < 128) then .ok (text.toList = expected)
    else .error .typeError
  | _ => .error .typeError

def verifyCaptcha (answer : Option (List Char)) (token : Option (List Char)) (now : ℕ) :
    Except Raised Bool := do
  match ← unsign L secretKey "captcha".toList token now with
  | none => .ok false
  | some payload =>
    if answer.getD [] = [] then .ok false
    else
      let given ← required payload "proof"
      let nonce ← required payload "nonce"
      compareDigest given
        (proof L secretKey (nonce.str R.quoted).toList (R.normal (answer.getD [])))

/-- What the server signed or digested: the three values above, and what it digests for others. -/
inductive Issue where
  | consent (S : ConsentSettings) (allowed : List ConsentCategory) (now : ℕ)
  | visitor (name : String) (maxAge : ℤ) (now : ℕ)
  | captcha (nonce word : List Char) (ttl : ℤ) (now : ℕ)
  | other (purpose body : List Char)

/-- The payload of the captcha a word was drawn for. -/
def captchaPayload (nonce word : List Char) : Fields :=
  [("nonce", .string (String.ofList nonce)),
    ("proof", .string (String.ofList (proof L secretKey nonce word)))]

def Issue.call : Issue → Option Call
  | consent S allowed now => some ⟨"consent".toList, consentPayload S allowed, S.maxAge, now⟩
  | visitor name maxAge now => some ⟨"visitor".toList, [("visitor", .string name)], maxAge, now⟩
  | captcha nonce word ttl now =>
    some ⟨"captcha".toList, captchaPayload L secretKey nonce word, ttl, now⟩
  | other _ _ => none

/-- What is digested for an issue besides: a purpose and what follows it. -/
def Issue.digested : Issue → Option (List Char × List Char)
  | captcha nonce word _ _ => some ("captcha-word".toList, nonce ++ '.' :: word)
  | other purpose body => some (purpose, body)
  | _ => none

/-- What is digested for others is under none of the purposes that are signed here, and a nonce has
no dot. -/
def Issue.Sound : Issue → Prop
  | other purpose _ =>
    '.' ∉ purpose ∧ purpose ∉ ["consent".toList, "visitor".toList, "captcha".toList]
  | captcha nonce _ _ _ => '.' ∉ nonce
  | _ => True

/-- What a server handed out, where its digests are ideal and JSON reads back what it wrote. -/
structure Issued (issues : List Issue) : Prop where
  ideal : Ideal L
  ascii : ∀ key m, (L.hmac key m).all (·.toNat < 128) = true
  sound : ∀ issue ∈ issues, issue.Sound
  reads : ∀ issue ∈ issues, ∀ call ∈ issue.call L secretKey,
    Reads L (stamped call.payload (expiryOf call.ttl call.now))

/-- The digest a text ends in, where it is one, was computed for an issue. -/
def From (issues : List Issue) (value : List Char) : Prop :=
  ∀ message, beyond '.' value = L.hmac (encoded secretKey) message → ∃ issue ∈ issues,
    (∃ call ∈ issue.call L secretKey,
      message = encoded (call.purpose ++ '.' :: bodyOf L call.payload call.ttl call.now)) ∨
    ∃ d ∈ issue.digested, message = encoded (d.1 ++ '.' :: d.2)

/-- A call whose value is past the second it ends in. -/
def Call.Over (call : Call) (later : ℕ) : Prop := expiryOf call.ttl call.now * Calendar.second < later

section Laws
variable {L} {R} {secretKey} {issues : List Issue} {S S' : ConsentSettings} {value token : List Char}
  {later moment : ℕ} {payload : Json} {purpose : List Char} {allowed : List ConsentCategory}

theorem call_purpose {issue : Issue} {call : Call} (hcall : call ∈ issue.call L secretKey) :
    '.' ∉ call.purpose := by
  cases issue with
  | other => cases hcall
  | _ => obtain rfl := Option.some.inj hcall; dsimp only; decide

theorem Issue.Sound.digested {issue : Issue} (h : issue.Sound) {d : List Char × List Char}
    (hd : d ∈ issue.digested) :
    '.' ∉ d.1 ∧ d.1 ∉ ["consent".toList, "visitor".toList, "captcha".toList] := by
  cases issue with
  | consent | visitor => cases hd
  | captcha => obtain rfl := Option.some.inj hd; dsimp only; decide
  | other => obtain rfl := Option.some.inj hd; exact h

/-- A text that is read under a purpose that is signed here was signed under it, and is read as
what was signed, in its time. -/
theorem unsign_issued (h : Issued L secretKey issues)
    (hpurpose : purpose ∈ ["consent".toList, "visitor".toList, "captcha".toList])
    (hvalue : From L secretKey issues value)
    (hread : unsign L secretKey purpose (some value) later = .ok (some payload)) :
    ∃ issue ∈ issues, ∃ call ∈ issue.call L secretKey, call.purpose = purpose ∧
      value = call.value L secretKey ∧ ¬call.Over later ∧
      payload = .object (stamped call.payload (expiryOf call.ttl call.now)) := by
  have hdot : '.' ∉ purpose := by
    have hall : ∀ p ∈ ["consent".toList, "visitor".toList, "captcha".toList], '.' ∉ p := by decide
    exact hall purpose hpurpose
  have hgiven : ¬(beyond '.' value = [] ∨
      encoded (beyond '.' value) ≠ encoded (digest L secretKey purpose (before '.' value))) := by
    intro hrefused
    unfold unsign at hread
    simp only [Option.getD_some] at hread
    split_ifs at hread <;> cases hread
  rw [not_or, not_not, encoded_inj] at hgiven
  obtain ⟨hgiven, hdigest⟩ := hgiven
  have hmem : '.' ∈ value := by
    by_contra hnot
    exact hgiven (beyond_of_not_mem hnot)
  obtain ⟨issue, hissue, ⟨call, hcall, hmessage⟩ | ⟨d, hd, hmessage⟩⟩ := hvalue _ hdigest
  · rw [encoded_inj] at hmessage
    have hdots := call_purpose hcall
    have hsame : call.purpose = purpose := by
      rw [← before_append hdots, ← hmessage, before_append hdot]
    have hbody : before '.' value = bodyOf L call.payload call.ttl call.now := by
      rw [← beyond_append (v := before '.' value) hdot, hmessage, beyond_append hdots]
    obtain rfl : value = call.value L secretKey := by
      rw [← before_append_beyond hmem, hdigest, hbody, ← hsame]
      rfl
    subst hsame
    rw [Call.value, unsign_sign h.ideal (h.reads issue hissue call hcall)] at hread
    by_cases hover : expiryOf call.ttl call.now * Calendar.second < later
    · rw [if_pos hover] at hread
      cases hread
    · rw [if_neg hover] at hread
      exact ⟨issue, hissue, call, hcall, rfl, rfl, hover, (Option.some.inj (Except.ok.inj hread)).symm⟩
  · rw [encoded_inj] at hmessage
    obtain ⟨hdots, hother⟩ := (h.sound issue hissue).digested hd
    have hsame : d.1 = purpose := by
      rw [← before_append hdots, ← hmessage, before_append hdot]
    exact absurd (hsame ▸ hpurpose) hother

/-- A consent that is read was written by this server. -/
theorem consent_issued (h : Issued L secretKey issues) (hvalue : From L secretKey issues value)
    (hread : unsign L secretKey "consent".toList (some value) later = .ok (some payload)) :
    ∃ S allowed moment, .consent S allowed moment ∈ issues ∧
      value = rememberConsent L secretKey S allowed moment ∧
      ¬expiryOf S.maxAge moment * Calendar.second < later ∧
      payload = .object (consentPayload S allowed ++ [("exp", .int (expiryOf S.maxAge moment))]) := by
  obtain ⟨issue, hissue, call, hcall, hsame, hv, hover, hpayload⟩ :=
    unsign_issued h (by simp) hvalue hread
  cases issue with
  | consent S allowed moment =>
    obtain rfl := Option.some.inj hcall
    exact ⟨S, allowed, moment, hissue, hv, hover, hpayload⟩
  | visitor | captcha =>
    obtain rfl := Option.some.inj hcall
    exact absurd hsame (by dsimp only; decide)
  | other => cases hcall

/-- A visitor who is read was named by this server. -/
theorem visitor_issued (h : Issued L secretKey issues) (hvalue : From L secretKey issues value)
    (hread : unsign L secretKey "visitor".toList (some value) later = .ok (some payload)) :
    ∃ name maxAge moment, .visitor name maxAge moment ∈ issues ∧
      value = minted L secretKey name maxAge moment ∧
      ¬expiryOf maxAge moment * Calendar.second < later ∧
      payload = .object [("visitor", .string name), ("exp", .int (expiryOf maxAge moment))] := by
  obtain ⟨issue, hissue, call, hcall, hsame, hv, hover, hpayload⟩ :=
    unsign_issued h (by simp) hvalue hread
  cases issue with
  | visitor name maxAge moment =>
    obtain rfl := Option.some.inj hcall
    exact ⟨name, maxAge, moment, hissue, hv, hover, hpayload⟩
  | consent | captcha =>
    obtain rfl := Option.some.inj hcall
    exact absurd hsame (by dsimp only; decide)
  | other => cases hcall

/-- A captcha that is read was drawn by this server. -/
theorem captcha_issued (h : Issued L secretKey issues) (hvalue : From L secretKey issues value)
    (hread : unsign L secretKey "captcha".toList (some value) later = .ok (some payload)) :
    ∃ nonce word ttl moment, .captcha nonce word ttl moment ∈ issues ∧
      value = issueCaptcha L secretKey nonce word ttl moment ∧
      ¬expiryOf ttl moment * Calendar.second < later ∧
      payload = .object (captchaPayload L secretKey nonce word ++
        [("exp", .int (expiryOf ttl moment))]) := by
  obtain ⟨issue, hissue, call, hcall, hsame, hv, hover, hpayload⟩ :=
    unsign_issued h (by simp) hvalue hread
  cases issue with
  | captcha nonce word ttl moment =>
    obtain rfl := Option.some.inj hcall
    exact ⟨nonce, word, ttl, moment, hissue, hv, hover, hpayload⟩
  | consent | visitor =>
    obtain rfl := Option.some.inj hcall
    exact absurd hsame (by dsimp only; decide)
  | other => cases hcall

theorem str_injective {a b : ConsentCategory} (h : a.str = b.str) : a = b := by
  cases a <;> cases b <;> first | rfl | exact absurd h (by decide)

/-- The names of a consent are read back as the categories it named. -/
theorem contains_sortedNames (allowed : List ConsentCategory) (category : ConsentCategory) :
    (sortedNames allowed).contains category.str = allowed.contains category := by
  rw [Bool.eq_iff_iff, List.contains_iff_mem, List.contains_iff_mem, sortedNames,
    List.mem_insertionSort, List.mem_map]
  constructor
  · rintro ⟨a, ha, hstr⟩
    exact str_injective hstr ▸ ha
  · exact fun h => ⟨category, h, rfl⟩

theorem members_texts (texts : List String) : members (.array (texts.map .string)) = .ok texts := by
  have hall : (texts.map Json.string).all hashable = true := by
    simp [hashable]
  have htexts : (texts.map Json.string).filterMap asText = texts := by
    rw [List.filterMap_map]
    exact List.filterMap_some
  simp only [members, hall, htexts, if_true]

/-- What a consent that is read allows: what was allowed of what is offered, where it answers the
question as it is asked now. -/
theorem given_consent {n : ℤ} {cookie : Option (List Char)}
    (hread : unsign L secretKey "consent".toList cookie later =
      .ok (some (.object (consentPayload S' allowed ++ [("exp", .int n)])))) :
    given L R secretKey S cookie later = .ok (if S'.version = S.version then
      ⟨S.optional.filter (fun category => allowed.contains category), true⟩ else Consent.unasked) := by
  have hversion : getField (.object (consentPayload S' allowed ++ [("exp", .int n)])) "version" .null =
      .int S'.version := rfl
  have hallowed : getField (.object (consentPayload S' allowed ++ [("exp", .int n)])) "allowed" (.array []) =
      .array ((sortedNames allowed).map .string) := rfl
  unfold given
  rw [hread]
  simp only [bind, Except.bind, Json.truthy, hversion, hallowed, members_texts, equalsInt,
    contains_sortedNames]
  by_cases hsame : S'.version = S.version <;> simp [hsame, consentPayload]

theorem named_visitor {n : ℤ} {name : String} {cookie : Option (List Char)}
    (hread : unsign L secretKey "visitor".toList cookie later =
      .ok (some (.object [("visitor", .string name), ("exp", .int n)]))) :
    named L secretKey cookie later = .ok (some (.string name)) := by
  unfold named
  rw [hread]
  rfl

/-- A name is read of a value that is read under the purpose. -/
theorem named_some {cookie : Option (List Char)} {name : Json}
    (h : named L secretKey cookie later = .ok (some name)) : ∃ value payload, cookie = some value ∧
      unsign L secretKey "visitor".toList (some value) later = .ok (some payload) := by
  cases cookie with
  | none => cases h
  | some value =>
    unfold named at h
    cases hread : unsign L secretKey "visitor".toList (some value) later with
    | error e =>
      rw [hread] at h
      cases h
    | ok read =>
      cases read with
      | none =>
        rw [hread] at h
        cases h
      | some payload => exact ⟨value, payload, rfl, hread⟩

/-- Where a name is read, this server handed it out, and it is in its time. -/
theorem named_issued {cookie : Option (List Char)} {name : Json} (h : Issued L secretKey issues)
    (hvalue : ∀ value ∈ cookie, From L secretKey issues value)
    (hname : named L secretKey cookie later = .ok (some name)) : ∃ text maxAge moment,
      .visitor text maxAge moment ∈ issues ∧ name = .string text ∧
      cookie = some (minted L secretKey text maxAge moment) ∧
      ¬expiryOf maxAge moment * Calendar.second < later := by
  obtain ⟨value, payload, rfl, hread⟩ := named_some hname
  obtain ⟨text, maxAge, moment, hissue, hv, hover, rfl⟩ := visitor_issued h (hvalue value rfl) hread
  rw [named_visitor hread] at hname
  exact ⟨text, maxAge, moment, hissue, (Option.some.inj (Except.ok.inj hname)).symm, congrArg some hv, hover⟩

/-- Where analytics are allowed, this server wrote the consent, and it answers the question that is
asked now. -/
theorem given_issued {cookie : Option (List Char)} {answer : Consent} {category : ConsentCategory}
    (h : Issued L secretKey issues) (hvalue : ∀ value ∈ cookie, From L secretKey issues value)
    (hgiven : given L R secretKey S cookie later = .ok answer) (hc : category ∈ answer.allowed) :
    ∃ S' allowed moment, .consent S' allowed moment ∈ issues ∧ S'.version = S.version ∧
      category ∈ allowed ∧ category ∈ S.optional ∧
      cookie = some (rememberConsent L secretKey S' allowed moment) ∧
      ¬expiryOf S'.maxAge moment * Calendar.second < later := by
  have hasked : answer ≠ Consent.unasked := by
    rintro rfl
    exact absurd hc List.not_mem_nil
  cases cookie with
  | none => exact absurd (Except.ok.inj hgiven).symm hasked
  | some value =>
    cases hread : unsign L secretKey "consent".toList (some value) later with
    | error e =>
      rw [given, hread] at hgiven
      cases hgiven
    | ok read =>
      cases read with
      | none =>
        rw [given, hread] at hgiven
        exact absurd (Except.ok.inj hgiven).symm hasked
      | some payload =>
        obtain ⟨S', allowed, moment, hissue, hv, hover, rfl⟩ := consent_issued h (hvalue value rfl) hread
        rw [given_consent hread] at hgiven
        split_ifs at hgiven with hversion
        · obtain rfl := Except.ok.inj hgiven
          simp only [List.mem_filter, List.contains_iff_mem] at hc
          exact ⟨S', allowed, moment, hissue, hversion, hc.2, hc.1, congrArg some hv, hover⟩
        · exact absurd (Except.ok.inj hgiven).symm hasked

/-- Who is counted by a cookie allowed it. -/
theorem counted_issued {request : Carrier} {name : Json} (h : Issued L secretKey issues)
    (hconsent : ∀ value ∈ request.consent, From L secretKey issues value)
    (hcounted : counted L R secretKey S request later = .ok (some name)) :
    named L secretKey request.visitor later = .ok (some name) ∧
      ∃ S' allowed moment, .consent S' allowed moment ∈ issues ∧ S'.version = S.version ∧
        .analytics ∈ allowed ∧ .analytics ∈ S.optional ∧
        request.consent = some (rememberConsent L secretKey S' allowed moment) ∧
        ¬expiryOf S'.maxAge moment * Calendar.second < later := by
  unfold counted at hcounted
  cases hgiven : given L R secretKey S request.consent later with
  | error e =>
    rw [hgiven] at hcounted
    cases hcounted
  | ok answer =>
    rw [hgiven] at hcounted
    simp only [bind, Except.bind] at hcounted
    split_ifs at hcounted with hallowed
    · exact ⟨hcounted, given_issued h hconsent hgiven (List.contains_iff_mem.mp hallowed)⟩
    · cases hcounted

/-- Without a consent, who is counted is who the body names. -/
theorem who_unasked {visitor body : Option (List Char)} :
    who L R secretKey S ⟨none, visitor, body⟩ later = named L secretKey body later := by
  have hgiven : given L R secretKey S none later = .ok Consent.unasked := rfl
  unfold who counted
  rw [hgiven]
  rfl

theorem minted_value (name : String) (maxAge : ℤ) (now : ℕ) : minted L secretKey name maxAge now =
    Call.value L secretKey ⟨"visitor".toList, [("visitor", .string name)], maxAge, now⟩ := rfl

theorem remember_value (S : ConsentSettings) (allowed : List ConsentCategory) (now : ℕ) :
    rememberConsent L secretKey S allowed now =
      Call.value L secretKey ⟨"consent".toList, consentPayload S allowed, S.maxAge, now⟩ := rfl

/-- The digest of what was handed out was computed for it. -/
theorem from_call {issue : Issue} {call : Call} (hL : Ideal L) (hissue : issue ∈ issues)
    (hcall : call ∈ issue.call L secretKey) : From L secretKey issues (call.value L secretKey) := by
  intro message hmessage
  have hdigest : beyond '.' (call.value L secretKey) = digest L secretKey call.purpose
      (bodyOf L call.payload call.ttl call.now) := beyond_append dot_not_mem_bodyOf
  rw [hdigest] at hmessage
  exact ⟨issue, hissue, .inl ⟨call, hcall, (hL.injective hmessage).symm⟩⟩

theorem proof_inj {nonce word word' : List Char} (hL : Ideal L)
    (h : proof L secretKey nonce word = proof L secretKey nonce word') : word = word' := by
  have hm := encoded_inj.mp (hL.injective h)
  simpa using hm

/-- What a token of a word is read as. -/
theorem verify_of_captcha {nonce word : List Char} {n : ℤ} {answer token : Option (List Char)}
    (h : Issued L secretKey issues)
    (hread : unsign L secretKey "captcha".toList token later =
      .ok (some (.object (captchaPayload L secretKey nonce word ++ [("exp", .int n)])))) :
    verifyCaptcha L R secretKey answer token later =
      .ok (answer.getD [] ≠ [] ∧ R.normal (answer.getD []) = word) := by
  unfold verifyCaptcha
  rw [hread]
  simp only [bind, Except.bind]
  by_cases hnil : answer.getD [] = []
  · simp [hnil]
  · rw [if_neg hnil]
    have hproof : required (.object (captchaPayload L secretKey nonce word ++ [("exp", .int n)])) "proof" =
        .ok (.string (String.ofList (proof L secretKey nonce word))) := rfl
    have hnonce : required (.object (captchaPayload L secretKey nonce word ++ [("exp", .int n)])) "nonce" =
        .ok (.string (String.ofList nonce)) := rfl
    have hascii : ∀ w, (proof L secretKey nonce w).all (·.toNat < 128) = true := fun w => h.ascii _ _
    simp only [hproof, hnonce, compareDigest, Json.str, String.toList_ofList, hascii, Bool.and_self, if_true]
    congr 1
    rw [decide_eq_decide]
    exact ⟨fun heq => ⟨hnil, (proof_inj h.ideal heq).symm⟩, fun heq => by rw [heq.2]⟩

end Laws

namespace Sample

/-- A digest that is the message itself, in halves of its bytes. -/
def halves (_ message : ByteArray) : List Char :=
  'x' :: message.data.toList.map (fun b => Char.ofNat (b.toNat / 16)) ++
    message.data.toList.map (fun b => Char.ofNat (b.toNat % 16))

/-- JSON of a few payloads, each written as where it stands. -/
def reading (payloads : List Fields) (place : Json → UInt8) : Library where
  hmac := halves
  dumps := fun value => [place value]
  loads := fun bytes => bytes.head?.bind fun b => (payloads[b.toNat]?).map .object
  earlier := fun _ _ => false

theorem halves_inj (key : ByteArray) {m n : ByteArray} (h : halves key m = halves key n) : m = n := by
  have hback : ∀ k : Fin 16, (Char.ofNat k).toNat = k := by decide +kernel
  have hof : ∀ {a b : ℕ}, a < 16 → b < 16 → Char.ofNat a = Char.ofNat b → a = b := by
    intro a b ha hb hab
    have hnat : (Char.ofNat a).toNat = (Char.ofNat b).toNat := congrArg Char.toNat hab
    exact (hback ⟨a, ha⟩).symm.trans (hnat.trans (hback ⟨b, hb⟩))
  have hlength : m.data.toList.length = n.data.toList.length := by
    have := congrArg List.length h
    simp only [halves, List.cons_append, List.length_cons, List.length_append, List.length_map] at this
    omega
  obtain ⟨hhigh, hlow⟩ := List.append_inj (List.cons.inj h).2 (by simpa using hlength)
  refine ByteArray.ext (Array.toList_inj.mp (List.ext_getElem hlength fun i hi hi' => ?_))
  have hhigh' := List.getElem_of_eq hhigh (i := i) (by simpa using hi)
  have hlow' := List.getElem_of_eq hlow (i := i) (by simpa using hi)
  rw [List.getElem_map, List.getElem_map] at hhigh' hlow'
  have hdiv := hof (by have := (m.data.toList[i]).toNat_lt; omega)
    (by have := (n.data.toList[i]).toNat_lt; omega) hhigh'
  have hmod := hof (Nat.mod_lt _ (by decide)) (Nat.mod_lt _ (by decide)) hlow'
  refine UInt8.toNat.inj ?_
  omega

theorem issued_reading {issues : List Issue} {payloads : List Fields} {place : Json → UInt8}
    (hsound : ∀ issue ∈ issues, issue.Sound)
    (hplace : ∀ issue ∈ issues, ∀ call ∈ issue.call (reading payloads place) [],
      payloads[(place (.object (stamped call.payload (expiryOf call.ttl call.now)))).toNat]? =
        some (stamped call.payload (expiryOf call.ttl call.now))) :
    Issued (reading payloads place) [] issues where
  ideal := ⟨fun {key _ _} h => halves_inj key h, fun _ _ => List.cons_ne_nil _ _⟩
  ascii := by
    intro key m
    have hsmall : ∀ k : Fin 16, (Char.ofNat k).toNat < 128 := by decide +kernel
    simp only [reading, halves, List.cons_append, List.all_cons, List.all_append, List.all_map,
      Bool.and_eq_true, List.all_eq_true, Function.comp_apply, decide_eq_true_eq]
    refine ⟨by decide, fun b _ => ?_, fun b _ => ?_⟩
    · exact hsmall ⟨b.toNat / 16, by have := b.toNat_lt; omega⟩
    · exact hsmall ⟨b.toNat % 16, Nat.mod_lt _ (by decide)⟩
  sound := hsound
  reads := by
    intro issue h call hcall
    change ((payloads[(place _).toNat]?).map Json.object) = _
    rw [hplace issue h call hcall]
    rfl

/-- The consent comes first and the name of a reader after it. -/
def order : Json → UInt8
  | .object fields => if hasField fields "version" then 0 else 1
  | _ => 1

def settings : ConsentSettings := ⟨1, [.analytics], 600⟩

/-- A reader was named for a minute, and allowed to be counted. -/
def counting : List Issue := [.consent settings [.analytics] 100900000, .visitor "x" 60 100900000]

def counts : Library :=
  reading [stamped (consentPayload settings [.analytics]) (expiryOf 600 100900000), visitor] order

theorem issued_counting : Issued counts [] counting := by
  refine issued_reading (fun issue h => ?_) (fun issue h call hcall => ?_)
  · fin_cases h <;> trivial
  · fin_cases h <;> obtain rfl := Option.some.inj hcall <;> rfl

end Sample

section Results
variable {L : Library} {R : Reader} {secretKey : List Char} {issues : List Issue}

/-- Nobody is counted who did not allow it or say so: a name a request counts as was handed out by
this server and is in its time, and it came in the body or in the cookie of a browser whose consent
this server wrote, in its time, with analytics allowed, for the question as it is asked now. And a
browser that carries both is counted. -/
theorem who_allowed (h : Issued L secretKey issues) :
    (∀ (S : ConsentSettings) (request : Carrier) (later : ℕ) (name : Json),
      (∀ value ∈ request.consent, From L secretKey issues value) →
      (∀ value ∈ request.visitor, From L secretKey issues value) →
      (∀ value ∈ request.body, From L secretKey issues value) →
      who L R secretKey S request later = .ok (some name) →
      ∃ text maxAge moment, .visitor text maxAge moment ∈ issues ∧ name = .string text ∧
        ¬expiryOf maxAge moment * Calendar.second < later ∧
        (request.body = some (minted L secretKey text maxAge moment) ∨
          request.visitor = some (minted L secretKey text maxAge moment) ∧
          ∃ S' allowed asked, .consent S' allowed asked ∈ issues ∧ S'.version = S.version ∧
            .analytics ∈ allowed ∧ .analytics ∈ S.optional ∧
            request.consent = some (rememberConsent L secretKey S' allowed asked) ∧
            ¬expiryOf S'.maxAge asked * Calendar.second < later)) ∧
    ∀ (S S' : ConsentSettings) (allowed : List ConsentCategory) (asked : ℕ) (text : String) (maxAge : ℤ)
      (moment later : ℕ) (body : Option (List Char)),
      .consent S' allowed asked ∈ issues → .visitor text maxAge moment ∈ issues →
      S'.version = S.version → .analytics ∈ allowed → .analytics ∈ S.optional → text ≠ "" →
      ¬expiryOf S'.maxAge asked * Calendar.second < later →
      ¬expiryOf maxAge moment * Calendar.second < later →
      who L R secretKey S ⟨some (rememberConsent L secretKey S' allowed asked),
        some (minted L secretKey text maxAge moment), body⟩ later = .ok (some (.string text)) := by
  refine ⟨fun S request later name hconsent hvisitor hbody hwho => ?_, ?_⟩
  · have hor : named L secretKey request.body later = .ok (some name) ∨
        counted L R secretKey S request later = .ok (some name) := by
      unfold who at hwho
      cases hcounted : counted L R secretKey S request later with
      | error e =>
        rw [hcounted] at hwho
        cases hwho
      | ok found =>
        rw [hcounted] at hwho
        cases found with
        | none => exact .inl hwho
        | some name' =>
          simp only [bind, Except.bind] at hwho
          split_ifs at hwho
          · exact .inr hwho
          · exact .inl hwho
    rcases hor with hnamed | hcounted
    · obtain ⟨text, maxAge, moment, hissue, hname, hv, hover⟩ := named_issued h hbody hnamed
      exact ⟨text, maxAge, moment, hissue, hname, hover, .inl hv⟩
    · obtain ⟨hnamed, hallowed⟩ := counted_issued h hconsent hcounted
      obtain ⟨text, maxAge, moment, hissue, hname, hv, hover⟩ := named_issued h hvisitor hnamed
      exact ⟨text, maxAge, moment, hissue, hname, hover, .inr ⟨hv, hallowed⟩⟩
  · intro S S' allowed asked text maxAge moment later body hconsent hvisitor hversion hallowed hoffered htext hasked hnamed
    have hgiven : given L R secretKey S (some (rememberConsent L secretKey S' allowed asked)) later =
        .ok (if S'.version = S.version then ⟨S.optional.filter (fun category => allowed.contains category), true⟩
          else Consent.unasked) :=
      given_consent ((unsign_sign h.ideal (h.reads _ hconsent _ rfl)).trans (by rw [if_neg hasked]; rfl))
    have hname : named L secretKey (some (minted L secretKey text maxAge moment)) later =
        .ok (some (.string text)) :=
      named_visitor ((unsign_sign h.ideal (h.reads _ hvisitor _ rfl)).trans (by rw [if_neg hnamed]; rfl))
    rw [if_pos hversion] at hgiven
    have hcounts : (S.optional.filter (fun category => allowed.contains category)).contains
        ConsentCategory.analytics = true := by
      simp [hallowed, hoffered]
    unfold who counted
    rw [hgiven]
    simp only [bind, Except.bind, hcounts, if_true, hname, Json.truthy, bne_iff_ne, ne_eq, htext,
      not_false_eq_true]

/-- The browser of a reader who was named and allowed to be counted, and one that says its name. -/
def Sample.browser : Carrier :=
  ⟨some (rememberConsent Sample.counts [] Sample.settings [.analytics] 100900000),
    some (minted Sample.counts [] "x" 60 100900000), none⟩

def Sample.reader : Reader := ⟨fun _ _ => false, id, id⟩

def Sample.form : Carrier := ⟨none, none, some (minted Sample.counts [] "x" 60 100900000)⟩

/-- A reader who was named for a minute is counted in it by the cookies, since the consent they
carry allows it, and by the body without one. -/
theorem who_allowed_named :
    (who Sample.counts Sample.reader [] Sample.settings Sample.browser 160000000 = .ok (some (.string "x")) ∧
      ∃ S allowed asked, .consent S allowed asked ∈ Sample.counting ∧ .analytics ∈ allowed) ∧
    ∃ text maxAge moment, .visitor text maxAge moment ∈ Sample.counting ∧
      Json.string "x" = .string text ∧ ¬expiryOf maxAge moment * Calendar.second < 160000000 := by
  have h := Sample.issued_counting
  have hconsent : Issue.consent Sample.settings [.analytics] 100900000 ∈ Sample.counting :=
    List.mem_cons_self ..
  have hvisitor : Issue.visitor "x" 60 100900000 ∈ Sample.counting :=
    List.mem_cons_of_mem _ (List.mem_cons_self ..)
  have hwho := who_allowed (R := Sample.reader) h
  have hcounted : who Sample.counts Sample.reader [] Sample.settings Sample.browser 160000000 =
      .ok (some (.string "x")) :=
    hwho.2 Sample.settings Sample.settings [.analytics] 100900000 "x" 60 100900000
      160000000 none hconsent hvisitor rfl (by simp) (by simp [Sample.settings]) (by decide)
      (by decide) (by decide)
  have hnone : ∀ value ∈ (none : Option (List Char)), From Sample.counts [] Sample.counting value :=
    fun _ hv => nomatch hv
  have hfromConsent : ∀ value ∈ Sample.browser.consent,
      From Sample.counts [] Sample.counting value := by
    intro value hv
    rw [← Option.some.inj hv, remember_value]
    exact from_call h.ideal hconsent rfl
  have hfromVisitor : ∀ value ∈ some (minted Sample.counts [] "x" 60 100900000),
      From Sample.counts [] Sample.counting value := by
    intro value hv
    rw [← Option.some.inj hv, minted_value]
    exact from_call h.ideal hvisitor rfl
  refine ⟨⟨hcounted, ?_⟩, ?_⟩
  · obtain ⟨_, _, _, -, -, -, hbody | ⟨-, S, allowed, asked, hissue, -, hallowed, -⟩⟩ :=
      hwho.1 Sample.settings Sample.browser 160000000 _ hfromConsent hfromVisitor hnone hcounted
    · exact absurd hbody.symm (Option.some_ne_none _)
    · exact ⟨S, allowed, asked, hissue, hallowed⟩
  · have hname : who Sample.counts Sample.reader [] Sample.settings Sample.form 160000000 =
        .ok (some (.string "x")) := by
      rw [Sample.form, who_unasked]
      exact named_visitor ((unsign_sign h.ideal (h.reads _ hvisitor _ rfl)).trans rfl)
    obtain ⟨text, maxAge, moment, hissue, hsame, hover, -⟩ :=
      hwho.1 Sample.settings Sample.form 160000000 _ hnone hnone hfromVisitor hname
    exact ⟨text, maxAge, moment, hissue, hsame, hover⟩

/-- A captcha is passed by the word it was drawn for and by nothing else: a token is accepted
exactly where this server drew it, in its time, and the answer, trimmed and raised, is its word. -/
theorem captcha_passed (h : Issued L secretKey issues) (answer : Option (List Char)) (token : List Char)
    (later : ℕ) (htoken : From L secretKey issues token) :
    verifyCaptcha L R secretKey answer (some token) later = .ok true ↔
      answer.getD [] ≠ [] ∧ ∃ nonce word ttl moment, .captcha nonce word ttl moment ∈ issues ∧
        token = issueCaptcha L secretKey nonce word ttl moment ∧
        ¬expiryOf ttl moment * Calendar.second < later ∧ R.normal (answer.getD []) = word := by
  constructor
  · intro hpassed
    cases hread : unsign L secretKey "captcha".toList (some token) later with
    | error e =>
      rw [verifyCaptcha, hread] at hpassed
      cases hpassed
    | ok read =>
      cases read with
      | none =>
        rw [verifyCaptcha, hread] at hpassed
        cases hpassed
      | some payload =>
        obtain ⟨nonce, word, ttl, moment, hissue, hv, hover, rfl⟩ := captcha_issued h htoken hread
        rw [verify_of_captcha h hread] at hpassed
        obtain ⟨hanswer, hword⟩ := of_decide_eq_true (Except.ok.inj hpassed)
        exact ⟨hanswer, nonce, word, ttl, moment, hissue, hv, hover, hword⟩
  · rintro ⟨hanswer, nonce, word, ttl, moment, hissue, rfl, hover, hword⟩
    have hread : unsign L secretKey "captcha".toList
        (some (issueCaptcha L secretKey nonce word ttl moment)) later =
        .ok (some (.object (captchaPayload L secretKey nonce word ++ [("exp", .int (expiryOf ttl moment))]))) :=
      (unsign_sign h.ideal (h.reads _ hissue _ rfl)).trans (by rw [if_neg hover]; rfl)
    rw [verify_of_captcha h hread, decide_eq_true ⟨hanswer, hword⟩]

/-- The word a captcha was drawn for passes it. -/
theorem captcha_passed_drawn : ∃ L : Library, verifyCaptcha L ⟨fun _ _ => false, id, id⟩ []
    (some ['A']) (some (issueCaptcha L [] ['n'] ['A'] 60 100900000)) 160000000 = .ok true := by
  let fields : Fields :=
    stamped (captchaPayload (Sample.reading [] fun _ => 0) [] ['n'] ['A']) (expiryOf 60 100900000)
  have h : Issued (Sample.reading [fields] fun _ => 0) [] [.captcha ['n'] ['A'] 60 100900000] := by
    refine Sample.issued_reading (fun issue h => ?_) (fun issue h call hcall => ?_)
    · rw [List.mem_singleton.mp h]
      exact show '.' ∉ ['n'] by decide
    · rw [List.mem_singleton.mp h] at hcall
      obtain rfl := Option.some.inj hcall
      rfl
  refine ⟨_, (captcha_passed h _ _ _ (from_call h.ideal (List.mem_singleton_self _) rfl)).mpr
    ⟨by simp, ['n'], ['A'], 60, 100900000, List.mem_singleton_self _, rfl, by decide, rfl⟩⟩

end Results
end FastKit.Signing
