import FastKit.Relational.Owners

/-! # The tables of the brands

Every table a brand's rows are in, the keys that lead from one to another and what the database
does with each, and where a table says which brand its rows belong to.
-/

namespace FastKit.Crud
open Relational

inductive Model where
  | tenant | language | country
  | user | userAddress | currency | product | contentCategory | content | gallery | galleryPhoto
  | banner | bannerImpression | integration | externalProduct | plan | entitlement | planEntitlement
  | benefit | purchase | subscription | userEntitlement | subscriptionBenefit | benefitGrant
  | userProduct | userBalance | creditTransaction | webhookEvent | appEvent | systemLog
  | newsletterSubscription | outboundEmail | emailLoginChallenge | loginTicket | socialIdentity
  | socialLoginAttempt | clientRequest
  deriving DecidableEq, Repr

inductive Column where
  | tenantId | userId | languageId | creditsCurrencyId | categoryId | galleryId | bannerId
  | integrationId | planId | entitlementId | productId | currencyId | externalProductId
  | subscriptionId | benefitId | userEntitlementId | subscriptionBenefitId | purchaseId
  | benefitGrantId
  deriving DecidableEq, Repr

/-- The column of the tenant, with which a row goes. -/
def tenantKey : Key Model Column := ⟨.tenantId, .tenant, .cascade, true⟩

/-- A column that may not be empty, of a row that goes with the one it points at. -/
def owning (column : Column) (target : Model) : Key Model Column := ⟨column, target, .cascade, false⟩

/-- A column that keeps the row it points at. -/
def keeping (column : Column) (target : Model) (nullable : Bool) : Key Model Column :=
  ⟨column, target, .restrict, nullable⟩

/-- A column that is emptied when the row it points at goes. -/
def recalling (column : Column) (target : Model) : Key Model Column := ⟨column, target, .setNull, true⟩

/-- `referenced` -/
def Model.keys : Model → List (Key Model Column)
  | .tenant | .language | .country => []
  | .user => [tenantKey, keeping .languageId .language true]
  | .userAddress => [owning .userId .user]
  | .currency => [tenantKey]
  | .product => [tenantKey, keeping .creditsCurrencyId .currency true]
  | .contentCategory => [tenantKey]
  | .content => [tenantKey, keeping .categoryId .contentCategory true, keeping .languageId .language true]
  | .gallery => [tenantKey, keeping .languageId .language true]
  | .galleryPhoto => [owning .galleryId .gallery]
  | .banner => [tenantKey, keeping .languageId .language true]
  | .bannerImpression => [owning .bannerId .banner]
  | .integration => [tenantKey]
  | .externalProduct => [owning .integrationId .integration, keeping .planId .plan false]
  | .plan => [tenantKey, keeping .languageId .language true]
  | .entitlement => [tenantKey]
  | .planEntitlement => [owning .planId .plan, owning .entitlementId .entitlement]
  | .benefit => [owning .entitlementId .entitlement, keeping .productId .product true,
      keeping .currencyId .currency true]
  | .purchase => [tenantKey, owning .userId .user, keeping .productId .product false,
      keeping .integrationId .integration true]
  | .subscription => [tenantKey, owning .userId .user, keeping .planId .plan false,
      keeping .integrationId .integration true, keeping .externalProductId .externalProduct true]
  | .userEntitlement => [owning .subscriptionId .subscription, keeping .entitlementId .entitlement false]
  | .subscriptionBenefit => [owning .subscriptionId .subscription, keeping .benefitId .benefit false,
      owning .userEntitlementId .userEntitlement, keeping .productId .product true,
      keeping .currencyId .currency true]
  | .benefitGrant => [owning .subscriptionBenefitId .subscriptionBenefit]
  | .userProduct => [owning .userId .user, keeping .productId .product false,
      recalling .purchaseId .purchase, recalling .subscriptionId .subscription,
      recalling .benefitGrantId .benefitGrant]
  | .userBalance => [owning .userId .user, keeping .currencyId .currency false]
  | .creditTransaction => [owning .userId .user, keeping .currencyId .currency false,
      recalling .benefitGrantId .benefitGrant]
  | .webhookEvent => [tenantKey, owning .integrationId .integration, recalling .userId .user,
      recalling .subscriptionId .subscription]
  | .appEvent => [tenantKey, ⟨.userId, .user, .cascade, true⟩]
  | .systemLog => [tenantKey, recalling .userId .user]
  | .newsletterSubscription | .outboundEmail | .emailLoginChallenge => [tenantKey]
  | .loginTicket | .socialIdentity => [tenantKey, owning .userId .user]
  | .socialLoginAttempt => [tenantKey, ⟨.userId, .user, .cascade, true⟩]
  | .clientRequest => [owning .userId .user]

/-- How many keys lead on from a table at most. -/
def Model.rank : Model → ℕ
  | .tenant | .language | .country => 0
  | .user | .currency | .contentCategory | .gallery | .banner | .integration | .plan | .entitlement
  | .newsletterSubscription | .outboundEmail | .emailLoginChallenge => 1
  | .product | .content | .userAddress | .galleryPhoto | .bannerImpression | .externalProduct
  | .planEntitlement | .userBalance | .appEvent | .systemLog | .loginTicket | .socialIdentity
  | .socialLoginAttempt | .clientRequest => 2
  | .benefit | .purchase | .subscription => 3
  | .userEntitlement | .webhookEvent => 4
  | .subscriptionBenefit => 5
  | .benefitGrant => 6
  | .userProduct | .creditTransaction => 7

/-- `Base.registry.mappers` -/
def Model.all : List Model :=
  [.tenant, .language, .country, .user, .userAddress, .currency, .product, .contentCategory, .content,
    .gallery, .galleryPhoto, .banner, .bannerImpression, .integration, .externalProduct, .plan,
    .entitlement, .planEntitlement, .benefit, .purchase, .subscription, .userEntitlement,
    .subscriptionBenefit, .benefitGrant, .userProduct, .userBalance, .creditTransaction,
    .webhookEvent, .appEvent, .systemLog, .newsletterSubscription, .outboundEmail,
    .emailLoginChallenge, .loginTicket, .socialIdentity, .socialLoginAttempt, .clientRequest]

theorem Model.mem_all (m : Model) : m ∈ Model.all := by cases m <;> decide

theorem Model.ranked (m : Model) : ∀ k ∈ m.keys, k.target.rank < m.rank := by cases m <;> decide

theorem Model.nodup_columns (m : Model) : (m.keys.map Key.column).Nodup := by cases m <;> decide

theorem Model.emptied (m : Model) : ∀ k ∈ m.keys, k.onDelete = .setNull → k.nullable = true := by
  cases m <;> decide

def schema : Schema Model Column :=
  ⟨Model.all, Model.mem_all, Model.keys, Model.rank, Model.ranked, Model.nodup_columns, Model.emptied⟩

/-- `"tenant_id" in model.__table__.columns` -/
def Model.hasTenant (m : Model) : Bool := m.keys.any (·.column = .tenantId)

/-- A row belongs to the brand it names, or to that of the row its first key leads to, and a row of a
table of the system to none. -/
def Model.home (m : Model) : Home Model Column :=
  if m.hasTenant then .own .tenantId
  else match m.keys with
    | k :: _ => .through k
    | [] => .nobody

theorem Model.home_own (m : Model) (column : Column) (h : m.home = .own column) :
    ∀ k ∈ m.keys, k.column = column → k.onDelete ≠ .setNull := by
  cases m <;> cases h <;> decide

theorem Model.home_through (m : Model) (k : Key Model Column) (h : m.home = .through k) :
    k ∈ m.keys ∧ k.onDelete = .cascade ∧ k.nullable = false := by
  cases m <;> cases h <;> decide

def brands : Ownership schema := ⟨Model.home, Model.home_own, Model.home_through⟩

end FastKit.Crud
