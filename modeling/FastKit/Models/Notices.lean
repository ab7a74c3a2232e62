import FastKit.Models.Enums

/-! # Faults and notices

What stops a call, and what a gateway says when it is asked or calls.
-/

namespace FastKit

/-- What stops a call: an operation on nothing, a row that is gone, a constraint the
database enforced, or a refusal with the code and the field it names. -/
inductive Fault where
  | typeError
  | attributeError
  | keyError
  | invalidRequest
  | integrity
  | recursion
  | silent (text : String)
  | unreadable (text : String)
  | conflict (code : String)
  | validation (code field : String)

/-- `type(error).__name__` -/
def Fault.name : Fault → String
  | .typeError => "TypeError"
  | .attributeError => "AttributeError"
  | .keyError => "KeyError"
  | .invalidRequest => "InvalidRequestError"
  | .integrity => "IntegrityError"
  | .recursion => "RecursionError"
  | .silent _ => "Silent"
  | .unreadable _ => "Unreadable"
  | .conflict _ => "ConflictError"
  | .validation _ _ => "ValidationError"

/-- `str(error)`, where the code of a refusal is what it says. -/
def Fault.text : Fault → String
  | .silent text => text
  | .unreadable text => text
  | .conflict code => code
  | .validation code _ => code
  | error => error.name

/-- One line of what a provider says an account holds. A purchase whose transaction has no
name has no `externalId`. -/
structure ProviderPurchase where
  externalId : Option ℕ
  productReference : ℕ
  store : Option String
  ownership : Option String
  periodType : Option String
  trial : Bool
  purchasedAt : Option ℕ
  firstPurchasedAt : Option ℕ
  periodEndsAt : Option ℕ
  graceEndsAt : Option ℕ
  autoResumeAt : Option ℕ
  unsubscribedAt : Option ℕ
  refundedAt : Option ℕ
  environment : Environment
  recurring : Bool
  status : Option SubscriptionStatus

/-- What a notice says: which account to look at, and what it was about. -/
structure ProviderEvent where
  /-- Missing where no column holds what the gateway named it. -/
  externalEventId : Option ℕ
  accountToken : Option ℕ
  productReference : Option ℕ
  /-- Other accounts the notice moved something for. -/
  alsoAbout : List ℕ
  state : Option (List ProviderPurchase)
  reference : Option ℕ
  purchaseStatus : Option PurchaseStatus
  paymentId : Option ℕ
  occurredAt : Option ℕ

/-- What arrived, told by what the gateway of each provider reads in it. -/
abbrev Payload := String → Except Fault (Option ProviderEvent)

/-- A call of a gateway, with what refuses it where nothing proves who called. -/
structure InboundCall where
  refused : Option Fault
  digest : ℕ
  data : Payload

end FastKit
