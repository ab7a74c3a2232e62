import FastKit.Models.Notices
import FastKit.Transaction.Table

/-! # Rows

The rows the delivery, the ledger and the reconciliation read and write, each with the
entries it holds in the unique indexes of its table. Texts that are only compared, such
as what a store calls a purchase, are numbers.
-/

namespace FastKit
open Transaction

/-- An account, with the token a gateway knows it by. -/
structure User where
  id : ℕ
  tenantId : Option ℕ
  token : ℕ

structure Currency where
  id : ℕ
  tenantId : Option ℕ

structure Integration where
  id : ℕ
  tenantId : Option ℕ
  provider : String
  active : Bool

structure Plan where
  id : ℕ
  name : String
  resumeDeliveryPolicy : ResumeDeliveryPolicy
  trialBenefitPolicy : BenefitPolicy
  graceBenefitPolicy : BenefitPolicy

structure PlanEntitlement where
  planId : ℕ
  entitlementId : ℕ

/-- What a plan is sold as inside one integration. -/
structure ExternalProduct where
  id : ℕ
  integrationId : ℕ
  planId : ℕ
  externalId : ℕ
  active : Bool

/-- Something owned for good once it was bought or handed over. -/
structure Product where
  id : ℕ
  name : String
  credits : ℤ
  creditsCurrencyId : Option ℕ

structure Benefit where
  id : ℕ
  entitlementId : ℕ
  productId : Option ℕ
  currencyId : Option ℕ
  type : BenefitType
  quantity : ℤ
  cadence : BenefitCadence
  grantOnActivation : Bool
  missedCyclePolicy : MissedCyclePolicy
  active : Bool

/-- What the last notice said about the purchase itself. -/
structure ProviderDetails where
  store : Option String
  ownership : Option String
  periodType : Option String
  recurring : Bool
  deriving DecidableEq

structure Subscription where
  id : ℕ
  tenantId : Option ℕ
  userId : ℕ
  planId : ℕ
  integrationId : Option ℕ
  externalProductId : Option ℕ
  externalId : Option ℕ
  status : SubscriptionStatus
  benefitStatus : BenefitStatus
  environment : Option Environment
  startedAt : Option ℕ
  currentPeriodStartedAt : Option ℕ
  currentPeriodEndsAt : Option ℕ
  accessUntil : Option ℕ
  trialEndsAt : Option ℕ
  graceUntil : Option ℕ
  cancelAtPeriodEnd : Bool
  canceledAt : Option ℕ
  expiredAt : Option ℕ
  statedAt : Option ℕ
  provider : Option ProviderDetails
  deriving DecidableEq

def Subscription.isEligibleForBenefits (s : Subscription) : Bool :=
  s.status.eligible && s.benefitStatus == .active

inductive SubscriptionKey where
  | external (integration transaction : ℕ)
  | product (user integration product : ℕ)
  deriving DecidableEq

def Subscription.keys (s : Subscription) : List SubscriptionKey :=
  match s.integrationId with
  | none => []
  | some integration =>
    (s.externalId.map (SubscriptionKey.external integration)).toList ++
      (s.externalProductId.map (SubscriptionKey.product s.userId integration)).toList

instance : Keyed Subscription SubscriptionKey := ⟨Subscription.id, Subscription.keys⟩

structure UserEntitlement where
  id : ℕ
  subscriptionId : ℕ
  entitlementId : ℕ
  status : UserEntitlementStatus
  startedAt : Option ℕ
  expiresAt : Option ℕ
  revokedAt : Option ℕ

instance : Keyed UserEntitlement (ℕ × ℕ) := ⟨(·.id), fun e => [(e.subscriptionId, e.entitlementId)]⟩

/-- The snapshot of a benefit taken when the subscription activated. -/
structure SubscriptionBenefit where
  id : ℕ
  subscriptionId : ℕ
  benefitId : ℕ
  userEntitlementId : ℕ
  productId : Option ℕ
  currencyId : Option ℕ
  status : BenefitStatus
  benefitType : BenefitType
  quantity : ℤ
  cadence : BenefitCadence
  grantOnActivation : Bool
  missedCyclePolicy : MissedCyclePolicy
  anchorAt : ℕ
  cycle : ℕ
  lastGrantAt : Option ℕ
  nextGrantAt : Option ℕ

instance : Keyed SubscriptionBenefit (ℕ × ℕ) := ⟨(·.id), fun b => [(b.subscriptionId, b.benefitId)]⟩

/-- What names a cycle: the second its slot is at, or the activation of a cycle. -/
inductive CycleKey where
  | slot (second : ℕ)
  | activation (cycle : ℕ)
  deriving DecidableEq, Repr

/-- The subscription benefit and the cycle a grant is for. -/
abbrev GrantKey := ℕ × CycleKey

/-- The user and the catalogue benefit a benefit granted once per user is reserved by. -/
abbrev UserBenefitKey := ℕ × ℕ

inductive GrantResult where
  | nothing
  | entitlement (entitlementId : ℕ)
  | credited (transactionId : ℕ) (balanceAfter : ℤ)
  | product (productId userProductId : ℕ)
  deriving DecidableEq, Repr

/-- One delivery attempt of one cycle. -/
structure BenefitGrant where
  id : ℕ
  subscriptionBenefitId : ℕ
  grantKey : GrantKey
  userBenefitKey : Option UserBenefitKey
  cycle : ℕ
  cycleKey : CycleKey
  scheduledAt : ℕ
  status : BenefitGrantStatus
  requestedQuantity : ℤ
  grantedQuantity : ℤ
  result : GrantResult
  errorCode : Option String
  errorMessage : Option String
  attempts : ℕ
  startedAt : Option ℕ
  completedAt : Option ℕ

inductive GrantIndex where
  | grant (key : GrantKey)
  | userBenefit (key : UserBenefitKey)
  deriving DecidableEq

instance : Keyed BenefitGrant GrantIndex :=
  ⟨(·.id), fun g => .grant g.grantKey :: (g.userBenefitKey.map GrantIndex.userBenefit).toList⟩

structure UserBalance where
  id : ℕ
  userId : ℕ
  currencyId : ℕ
  amount : ℤ

instance : Keyed UserBalance (ℕ × ℕ) := ⟨(·.id), fun b => [(b.userId, b.currencyId)]⟩

/-- What keeps a replayed movement from moving twice: the grant it pays, the grant or the
purchase a product with credits came from, or a token of its own. -/
inductive IdempotencyKey where
  | grant (key : GrantKey)
  | product (key : GrantKey)
  | purchase (reference : ℕ)
  | token (token : ℕ)
  deriving DecidableEq

structure CreditTransaction where
  id : ℕ
  userId : ℕ
  currencyId : ℕ
  benefitGrantId : Option ℕ
  type : CreditTransactionType
  amount : ℤ
  balanceAfter : ℤ
  idempotencyKey : IdempotencyKey
  description : Option String
  deriving DecidableEq

instance : Keyed CreditTransaction IdempotencyKey := ⟨(·.id), fun t => [t.idempotencyKey]⟩

structure UserProduct where
  id : ℕ
  userId : ℕ
  productId : ℕ
  subscriptionId : Option ℕ
  purchaseId : Option ℕ
  benefitGrantId : Option ℕ
  grantedAt : ℕ

instance : Keyed UserProduct (ℕ × ℕ) := ⟨(·.id), fun p => [(p.userId, p.productId)]⟩

/-- One payment for one product, written before the buyer is sent to a gateway. -/
structure Purchase where
  id : ℕ
  userId : ℕ
  productId : ℕ
  integrationId : Option ℕ
  reference : ℕ
  externalId : Option ℕ
  status : PurchaseStatus
  paidAt : Option ℕ

inductive PurchaseKey where
  | reference (reference : ℕ)
  | external (integration payment : ℕ)
  deriving DecidableEq

def Purchase.keys (p : Purchase) : List PurchaseKey :=
  .reference p.reference ::
    (p.integrationId.bind (fun i => p.externalId.map (PurchaseKey.external i))).toList

instance : Keyed Purchase PurchaseKey := ⟨Purchase.id, Purchase.keys⟩

/-- A call of a gateway as it was written down. -/
structure WebhookEvent where
  id : ℕ
  integrationId : ℕ
  userId : Option ℕ
  subscriptionId : Option ℕ
  externalEventId : ℕ
  payload : Payload
  occurredAt : Option ℕ
  processedAt : Option ℕ
  status : WebhookEventStatus
  errorCode : Option String
  errorMessage : Option String
  attempts : ℕ
  createdAt : ℕ
  updatedAt : ℕ

instance : Keyed WebhookEvent (ℕ × ℕ) := ⟨(·.id), fun e => [(e.integrationId, e.externalEventId)]⟩

/-- What the system log says, as the texts and the data of its entries. -/
inductive LogMessage where
  | newCycleOpened (subscription operator released : ℕ)
  | receiptPassedOn (subscription fromUser toUser : ℕ)
  | nothingMaps (product user : ℕ)
  | closed (subscription : ℕ) (status : SubscriptionStatus) (reason : String)
  | webhookFailed (event externalEvent : ℕ) (provider error : String)
  | keyRefused (integration : ℕ)
  | givenUp (subscription grant : ℕ) (key : GrantKey) (attempts : ℕ) (code error : Option String)

inductive LogLevel where
  | info | warning | error

structure SystemLog where
  tenantId : Option ℕ
  userId : ℕ
  level : LogLevel
  message : LogMessage

end FastKit
