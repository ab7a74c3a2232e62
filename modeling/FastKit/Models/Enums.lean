import FastKit.Models.Dates

/-! # Enumerations

The words of the program, with the sets of them its services decide by.
-/

namespace FastKit

inductive SubscriptionStatus where
  | pending | trialing | active | gracePeriod | suspended | expired | revoked
  deriving DecidableEq, Repr

def SubscriptionStatus.eligible : SubscriptionStatus → Bool
  | .trialing | .active | .gracePeriod => true
  | _ => false

def SubscriptionStatus.closed : SubscriptionStatus → Bool
  | .expired | .revoked => true
  | _ => false

inductive BenefitStatus where
  | active | paused | ended
  deriving DecidableEq, Repr

inductive BenefitGrantStatus where
  | processing | completed | skipped | failed
  deriving DecidableEq, Repr

def BenefitGrantStatus.advances : BenefitGrantStatus → Bool
  | .completed | .skipped => true
  | _ => false

inductive BenefitPolicy where
  | none | accessOnly | all
  deriving DecidableEq, Repr

inductive BenefitType where
  | access | credit | product
  deriving DecidableEq, Repr

/-- How often a benefit is granted. The interval is part of the cadence, because only a
recurring benefit is saved with one. -/
inductive BenefitCadence where
  | onActivation
  | recurring (every : Interval)
  | oncePerUser
  deriving DecidableEq, Repr

def BenefitCadence.interval : BenefitCadence → Option Interval
  | .recurring every => some every
  | _ => none

inductive MissedCyclePolicy where
  | skip | latestOnly | catchUp
  deriving DecidableEq, Repr

inductive ResumeDeliveryPolicy where
  | sameCycle | newCycle
  deriving DecidableEq, Repr

inductive UserEntitlementStatus where
  | active | expired
  deriving DecidableEq, Repr

inductive CreditTransactionType where
  | credit | debit | reversal | adjustment
  deriving DecidableEq, Repr

inductive PurchaseStatus where
  | pending | paid | canceled | failed | refunded | chargedBack
  deriving DecidableEq, Repr

def PurchaseStatus.settled : PurchaseStatus → Bool
  | .paid | .refunded | .chargedBack => true
  | _ => false

inductive WebhookEventStatus where
  | received | processing | completed | ignored | failed
  deriving DecidableEq, Repr

inductive Environment where
  | production | sandbox
  deriving DecidableEq, Repr

end FastKit
