import FastKit.Services.Gateways
import FastKit.Text.Json
import Mathlib.Data.List.MinMax
import Mathlib.Data.String.Basic
import Mathlib.Logic.Embedding.Basic

/-! # What RevenueCat answers about an account

The answer to a question is one object with the subscriptions of the account and what it bought
once. It is checked as a whole before a purchase is read out of it.
-/

namespace FastKit.RevenueCat
open Text

/-- A moment as it was written, which names a moment of time only with an offset. -/
inductive Datetime where
  | aware (moment : ℕ)
  | naive (wall : ℕ)

def Datetime.moment : Datetime → ℕ
  | aware moment => moment
  | naive wall => wall

def Datetime.isAware : Datetime → Bool
  | aware _ => true
  | naive _ => false

/-- What the language makes of texts: how it quotes one, one in uppercase, and the moment one
in ISO 8601 is of. -/
structure Language where
  quoted : String → String
  upper : String → String
  fromisoformat : String → Option Datetime

/-- The answer to a question about an account: its status, the pause it asks for, and its body
where that is JSON. -/
structure Response where
  status : ℕ
  pause : ℕ
  body : Option Json

/-- Why a question was not answered. -/
inductive Refusal where
  | rateLimited (seconds : ℕ)
  | status (code : ℕ)
  | silent (text : String)

variable (L : Language)

/-- `replace("Z", "+00:00")` -/
def zulu (text : String) : String :=
  String.ofList (text.toList.flatMap fun c => if c = 'Z' then "+00:00".toList else [c])

/-- ISO 8601 in UTC. -/
def instant (value : Json) : Option Datetime :=
  if value.truthy then L.fromisoformat (zulu (value.str L.quoted)) else none

def momentOf (value : Json) : Option ℕ := (instant L value).map Datetime.moment

def text (value : Json) : Option String :=
  match value with
  | .null => none
  | .string "" => none
  | value => some (value.str L.quoted)

def dates : List String :=
  ["purchase_date", "original_purchase_date", "expires_date", "grace_period_expires_date",
    "auto_resume_date", "unsubscribe_detected_at", "refunded_at"]

/-- A date is a text with a moment and its offset, or none is given. -/
def validDate : Json → Bool
  | .null => true
  | .string date => (instant L (.string date)).any Datetime.isAware
  | _ => false

def validatePurchase (recurring : Bool) : Json → Except Refusal Fields
  | .object entry =>
    if !(fieldOf entry "purchase_date").isString then
      .error (.silent "RevenueCat returned an invalid purchase")
    else if recurring && !hasField entry "expires_date" then
      .error (.silent "RevenueCat returned a subscription without its expiration")
    else if dates.all (fun field => validDate L (fieldOf entry field)) then .ok entry
    else .error (.silent "RevenueCat returned an invalid purchase date")
  | _ => .error (.silent "RevenueCat returned an invalid purchase")

def validateOnce : Json → Except Refusal (List Fields)
  | .array entries => entries.mapM (validatePurchase L false)
  | _ => .error (.silent "RevenueCat returned invalid non-subscription purchases")

/-- What an account holds by the product it is of. -/
structure Subscriber where
  subscriptions : List (String × Fields)
  nonSubscriptions : List (String × List Fields)

def customerSnapshot (body : Option Json) : Except Refusal Subscriber :=
  match body with
  | some (.object envelope) =>
    match fieldOf envelope "subscriber" with
    | .object subscriber =>
      match fieldOf subscriber "subscriptions", fieldOf subscriber "non_subscriptions" with
      | .object subscriptions, .object nonSubscriptions => do
        let recurring ← subscriptions.mapM fun p => (validatePurchase L true p.2).map (p.1, ·)
        let once ← nonSubscriptions.mapM fun p => (validateOnce L p.2).map (p.1, ·)
        pure ⟨recurring, once⟩
      | _, _ => .error (.silent "RevenueCat returned invalid purchase collections")
    | _ => .error (.silent "RevenueCat returned an invalid customer snapshot")
  | _ => .error (.silent "RevenueCat returned an invalid customer snapshot")

theorem toNat_lt (c : Char) : c.toNat < 1114112 := by
  rcases c.valid with h | ⟨-, h⟩ <;> change c.val.toNat < _ <;> omega

/-- Characters as the digits of one number. -/
def spelled (text : List Char) : ℕ := text.foldr (fun c n => n * 1114112 + (c.toNat + 1)) 0

theorem spelled_injective : Function.Injective spelled := by
  intro l
  induction l with
  | nil =>
    rintro (_ | ⟨c, k⟩) h
    · rfl
    · simp only [spelled, List.foldr_nil, List.foldr_cons] at h
      omega
  | cons c l ih =>
    rintro (_ | ⟨d, k⟩) h
    · simp only [spelled, List.foldr_nil, List.foldr_cons] at h
      omega
    · simp only [spelled, List.foldr_cons] at h
      have hc : c.toNat < 1114112 := toNat_lt c
      have hd : d.toNat < 1114112 := toNat_lt d
      obtain rfl : c = d := Char.toNat_inj.mp (by omega)
      rw [ih (show spelled l = spelled k by simp only [spelled]; omega)]

/-- The number a text is compared by, which no other text has. -/
def numberOf : String ↪ ℕ :=
  ⟨fun text => spelled text.toList, fun _ _ h => String.toList_injective (spelled_injective h)⟩

def named (text : String) : Option ℕ := if text = "" then none else some (numberOf text)

/-- A Google subscription sells base plans, and monthly and annual are two of them under one
product. -/
def reference (product : String) (entry : Fields) : String :=
  match text L (fieldOf entry "product_plan_identifier") with
  | some plan => product ++ ":" ++ plan
  | none => product

def environmentOf (entry : Fields) : Environment :=
  if (fieldOf entry "is_sandbox").truthy then .sandbox else .production

/-- A period the buyer is not paying full price for. -/
def trialPeriods : List String := ["TRIAL", "INTRO"]

def recurring (product : String) (entry : Fields) : ProviderPurchase :=
  let period := L.upper ((fieldOf entry "period_type").strOr L.quoted)
  { externalId := named ((fieldOf entry "store_transaction_id").strOr L.quoted)
    productReference := numberOf (reference L product entry)
    store := text L (fieldOf entry "store")
    ownership := text L (fieldOf entry "ownership_type")
    periodType := if period = "" then none else some period
    trial := trialPeriods.contains period
    purchasedAt := momentOf L (fieldOf entry "purchase_date")
    firstPurchasedAt := momentOf L (fieldOf entry "original_purchase_date")
    periodEndsAt := momentOf L (fieldOf entry "expires_date")
    graceEndsAt := momentOf L (fieldOf entry "grace_period_expires_date")
    autoResumeAt := momentOf L (fieldOf entry "auto_resume_date")
    unsubscribedAt := momentOf L (fieldOf entry "unsubscribe_detected_at")
    refundedAt := momentOf L (fieldOf entry "refunded_at")
    environment := environmentOf entry
    recurring := true
    status := none }

/-- A purchase that never renews has no period, so what it grants never ends on its own. -/
def once (product : String) (entry : Fields) : ProviderPurchase :=
  { externalId := named ((fieldOf entry "id").strOr L.quoted)
    productReference := numberOf product
    store := text L (fieldOf entry "store")
    ownership := none
    periodType := none
    trial := false
    purchasedAt := momentOf L (fieldOf entry "purchase_date")
    firstPurchasedAt := none
    periodEndsAt := none
    graceEndsAt := none
    autoResumeAt := none
    unsubscribedAt := none
    refundedAt := none
    environment := environmentOf entry
    recurring := false
    status := none }

/-- What never renews is listed once per purchase, and buying the same thing twice is still one
thing the account holds. -/
def latest (entries : List Fields) : Option Fields :=
  entries.argmax fun entry => (fieldOf entry "purchase_date").strOr L.quoted

def purchases (subscriber : Subscriber) : List ProviderPurchase :=
  subscriber.subscriptions.map (fun p => recurring L p.1 p.2) ++
    subscriber.nonSubscriptions.filterMap (fun p => (latest L p.2).map (once L p.1))

/-- RevenueCat is asked rather than believed. -/
def stateFromQuery (answer : Response) : Except Refusal (List ProviderPurchase) :=
  if answer.status = 429 then .error (.rateLimited answer.pause)
  else if answer.status < 200 ∨ 300 ≤ answer.status then .error (.status answer.status)
  else (customerSnapshot L answer.body).map (purchases L)

def answerOf : Except Refusal (List ProviderPurchase) → Answer
  | .ok held => .held held
  | .error (.rateLimited seconds) => .rateLimited seconds
  | .error (.status code) => if code = 401 ∨ code = 403 then .refused else .silent "did not answer"
  | .error (.silent text) => .silent text

end FastKit.RevenueCat
