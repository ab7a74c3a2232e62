import FastKit.Services.Sessions
import FastKit.Transaction.IdentityMap

/-! # What a closing closes

A closing reads the rows of a subscription and sets them in memory. What it leaves in the
database is told by the copies the session had of them, whatever others wrote meanwhile.
-/

namespace FastKit
open Transaction

/-- The attributes the services set of a benefit in memory. -/
def writeCopyOfBenefit (c : Copy SubscriptionBenefit) (row : SubscriptionBenefit) :
    SubscriptionBenefit :=
  { row with
    status := changed c.loaded.status c.now.status row.status
    nextGrantAt := changed c.loaded.nextGrantAt c.now.nextGrantAt row.nextGrantAt }

/-- The attributes the services set of an entitlement in memory. -/
def writeCopyOfEntitlement (c : Copy UserEntitlement) (row : UserEntitlement) : UserEntitlement :=
  { row with
    status := changed c.loaded.status c.now.status row.status
    expiresAt := changed c.loaded.expiresAt c.now.expiresAt row.expiresAt
    revokedAt := changed c.loaded.revokedAt c.now.revokedAt row.revokedAt }

instance : Mapped SubscriptionBenefit := ⟨writeCopyOfBenefit, fun _ _ => ⟨rfl, rfl⟩⟩

instance : Mapped UserEntitlement := ⟨writeCopyOfEntitlement, fun _ _ => ⟨rfl, rfl⟩⟩

/-- What a session has in memory of benefits and entitlements. -/
structure Copies where
  benefits : IdentityMap SubscriptionBenefit
  entitlements : IdentityMap UserEntitlement

namespace Copies

def none : Copies := ⟨fun _ => .none, fun _ => .none⟩

def flushed (m : Copies) : Copies := ⟨m.benefits.synced, m.entitlements.synced⟩

/-- `expire_entitlements`, on the entitlements it reads. -/
def expireEntitlements (subscriptionId : ℕ) (entitlements : Table UserEntitlement) (m : Copies) :
    Copies :=
  { m with
    entitlements := IdentityMap.rewrite (·.subscriptionId == subscriptionId)
      (fun e => { e with status := .expired }) entitlements m.entitlements }

/-- `end_benefits`, on the benefits and the entitlements it reads one after the other. -/
def endBenefits (subscriptionId : ℕ) (benefits : Table SubscriptionBenefit)
    (entitlements : Table UserEntitlement) (m : Copies) : Copies :=
  expireEntitlements subscriptionId entitlements { m with
    benefits := IdentityMap.rewrite (·.subscriptionId == subscriptionId)
      (fun b => { b with status := .ended, nextGrantAt := Option.none }) benefits m.benefits }

def commit (m : Copies) (t : Store) : Store :=
  { t with
    benefits := IdentityMap.flush m.benefits t.benefits
    entitlements := IdentityMap.flush m.entitlements t.entitlements }

theorem still_paused : Still fun b : SubscriptionBenefit =>
    { b with status := .paused, nextGrantAt := .none } := fun _ => ⟨rfl, rfl⟩

/-- The branch of an activation that gives nothing: what waits in memory is flushed, the
entitlements are set in memory, and the benefits are paused where they are. -/
def pause (subscriptionId : ℕ) (entitlements : Table UserEntitlement) (m : Copies) (t : Store) :
    Store :=
  (m.flushed.expireEntitlements subscriptionId entitlements).commit
    { t with
      benefits := t.benefits.modify
        (fun b => b.subscriptionId == subscriptionId && b.status == .active)
        (fun b => { b with status := .paused, nextGrantAt := .none }) still_paused }

end Copies

theorem attribute_status : Attribute SubscriptionBenefit.status := fun _ _ => rfl

theorem attribute_nextGrantAt : Attribute SubscriptionBenefit.nextGrantAt := fun _ _ => rfl

theorem attribute_entitlement_status : Attribute UserEntitlement.status := fun _ _ => rfl

/-- The benefits of a subscription are ended, with no date. -/
def AllEnded (subscriptionId : ℕ) (t : Store) : Prop :=
  ∀ b ∈ t.benefits, b.subscriptionId = subscriptionId → b.status = .ended ∧ b.nextGrantAt = none

def AllExpired (subscriptionId : ℕ) (t : Store) : Prop :=
  ∀ e ∈ t.entitlements, e.subscriptionId = subscriptionId → e.status = .expired

/-- What a session has of every benefit of a subscription lets it be ended. -/
def MayEnd (subscriptionId : ℕ) (benefits : Table SubscriptionBenefit) (m : Copies) (t : Store) :
    Prop :=
  ∀ b ∈ t.benefits, b.subscriptionId = subscriptionId →
    IdentityMap.Lands (·.status) BenefitStatus.ended (·.subscriptionId == subscriptionId) benefits
      m.benefits b ∧
    IdentityMap.Lands (·.nextGrantAt) none (·.subscriptionId == subscriptionId) benefits m.benefits b

/-- What a session has of every entitlement of a subscription lets it be expired. -/
def MayExpire (subscriptionId : ℕ) (entitlements : Table UserEntitlement) (m : Copies) (t : Store) :
    Prop :=
  ∀ e ∈ t.entitlements, e.subscriptionId = subscriptionId →
    IdentityMap.Lands (·.status) UserEntitlementStatus.expired (·.subscriptionId == subscriptionId)
      entitlements m.entitlements e

variable {subscriptionId : ℕ} {benefits : Table SubscriptionBenefit}
  {entitlements : Table UserEntitlement} {m : Copies} {t : Store}

theorem allExpired_iff : AllExpired subscriptionId
    ((m.expireEntitlements subscriptionId entitlements).commit t) ↔
      MayExpire subscriptionId entitlements m t := by
  have h := IdentityMap.flush_rewrite (m := m.entitlements) (s := entitlements)
    (t := t.entitlements) (p := (·.subscriptionId == subscriptionId))
    (q := (·.subscriptionId == subscriptionId)) (f := fun e => { e with status := .expired })
    attribute_entitlement_status (fun _ => rfl) (fun _ _ => rfl)
  simp only [beq_iff_eq] at h
  exact h

theorem ended_iff : AllEnded subscriptionId
    ((m.endBenefits subscriptionId benefits entitlements).commit t) ↔
      MayEnd subscriptionId benefits m t := by
  have hstatus := IdentityMap.flush_rewrite (m := m.benefits) (s := benefits) (t := t.benefits)
    (p := (·.subscriptionId == subscriptionId)) (q := (·.subscriptionId == subscriptionId))
    (f := fun b => { b with status := .ended, nextGrantAt := none })
    attribute_status (fun _ => rfl) (fun _ _ => rfl)
  have hnext := IdentityMap.flush_rewrite (m := m.benefits) (s := benefits) (t := t.benefits)
    (p := (·.subscriptionId == subscriptionId)) (q := (·.subscriptionId == subscriptionId))
    (f := fun b => { b with status := .ended, nextGrantAt := none })
    attribute_nextGrantAt (fun _ => rfl) (fun _ _ => rfl)
  simp only [beq_iff_eq] at hstatus hnext
  constructor
  · intro h b hb hsub
    exact ⟨hstatus.mp (fun b hb hsub => (h b hb hsub).1) b hb hsub,
      hnext.mp (fun b hb hsub => (h b hb hsub).2) b hb hsub⟩
  · intro h b hb hsub
    exact ⟨hstatus.mpr (fun b hb hsub => (h b hb hsub).1) b hb hsub,
      hnext.mpr (fun b hb hsub => (h b hb hsub).2) b hb hsub⟩

/-- Ending the benefits expires the entitlements as expiring them alone does. -/
theorem endBenefits_allExpired : AllExpired subscriptionId
    ((m.endBenefits subscriptionId benefits entitlements).commit t) ↔
      MayExpire subscriptionId entitlements m t :=
  allExpired_iff (m := { m with
    benefits := m.benefits.rewrite (·.subscriptionId == subscriptionId)
      (fun b => { b with status := .ended, nextGrantAt := none }) benefits })

theorem changed_loaded {α : Type} [DecidableEq α] (loaded now : α) :
    changed loaded now loaded = now := by
  unfold changed
  split_ifs with h
  · exact h.symm
  · rfl

/-- A session that has read none of the rows ends them as the services have it: where they are. -/
theorem endBenefits_new {memory : Memory} {b : Store} : endBenefits subscriptionId memory b t =
    .done ((Copies.none.endBenefits subscriptionId t.benefits t.entitlements).commit t)
      (.ok ((), memory)) := by
  have hbenefits := IdentityMap.flush_rewrite_new (p := (·.subscriptionId == subscriptionId))
    (t := t.benefits) (f := fun b => { b with status := .ended, nextGrantAt := none })
    (fun _ => ⟨rfl, rfl⟩) (fun b => by simp only [Mapped.write, writeCopyOfBenefit, changed_loaded])
  have hentitlements := IdentityMap.flush_rewrite_new (p := (·.subscriptionId == subscriptionId))
    (t := t.entitlements) (f := fun e => { e with status := .expired })
    (fun _ => ⟨rfl, rfl⟩)
    (fun e => by simp only [Mapped.write, writeCopyOfEntitlement, changed_loaded])
  unfold Copies.commit Copies.endBenefits Copies.expireEntitlements Copies.none
  rw [hbenefits, hentitlements]
  rfl

/-- A closing closes every row of the subscription exactly where what the session has of each
says something else than it is to say, or the row says it already; so does a pause of the
entitlements. -/
theorem closing_closes_iff (subscriptionId : ℕ) (benefits : Table SubscriptionBenefit)
    (entitlements : Table UserEntitlement) (m : Copies) (t : Store) :
    (AllEnded subscriptionId ((m.endBenefits subscriptionId benefits entitlements).commit t) ∧
        AllExpired subscriptionId ((m.endBenefits subscriptionId benefits entitlements).commit t) ↔
      MayEnd subscriptionId benefits m t ∧ MayExpire subscriptionId entitlements m t) ∧
    (AllExpired subscriptionId (m.pause subscriptionId entitlements t) ↔
      MayExpire subscriptionId entitlements m.flushed t) :=
  ⟨and_congr ended_iff endBenefits_allExpired, allExpired_iff (m := m.flushed)⟩

/-- A session that has nothing older than what is stored closes what is stored. -/
theorem closes_of_current
    (hbenefits : ∀ b ∈ t.benefits, ∀ c, m.benefits b.id = some c →
      c.loaded.status = b.status ∧ c.loaded.nextGrantAt = b.nextGrantAt)
    (hentitlements : ∀ e ∈ t.entitlements, ∀ c, m.entitlements e.id = some c →
      c.loaded.status = e.status) :
    AllEnded subscriptionId ((m.endBenefits subscriptionId t.benefits t.entitlements).commit t) ∧
      AllExpired subscriptionId ((m.endBenefits subscriptionId t.benefits t.entitlements).commit t) := by
  refine ⟨ended_iff.mpr fun b hb hsub => ?_, endBenefits_allExpired.mpr fun e he hsub => ?_⟩
  · have hp : (b.subscriptionId == subscriptionId) = true := beq_iff_eq.mpr hsub
    exact ⟨IdentityMap.lands_of_current hp hb fun c hc => (hbenefits b hb c hc).1,
      IdentityMap.lands_of_current hp hb fun c hc => (hbenefits b hb c hc).2⟩
  · exact IdentityMap.lands_of_current (beq_iff_eq.mpr hsub) he (hentitlements e he)

namespace Shop

/-- A benefit of a subscription that runs, and its entitlement. -/
def running : SubscriptionBenefit :=
  ⟨0, 0, 100, 0, none, some 7, .active, .credit, 30, .recurring ⟨.month, 1, Nat.one_pos⟩, true,
    .catchUp, opening, 0, none, some opening⟩

def promised : UserEntitlement := ⟨0, 0, 10, .active, some opening, none, none⟩

/-- A store the subscription was activated in again. -/
def reopened : Store :=
  { new (catalog [credits 100]) with
    benefits := ⟨[running], 1, List.pairwise_singleton _ _, by decide⟩
    entitlements := ⟨[promised], 1, List.pairwise_singleton _ _, by decide⟩ }

/-- What a session has that read the rows while the subscription was closed. -/
def stale : Copies where
  benefits id := if id = 0 then
      some ⟨{ running with status := .ended, nextGrantAt := none },
        { running with status := .ended, nextGrantAt := none }⟩
    else none
  entitlements id := if id = 0 then
      some ⟨{ promised with status := .expired }, { promised with status := .expired }⟩
    else none

end Shop

/-- What a session read while it was closed stays open when the session closes it again. -/
theorem stale_closing_closes_nothing :
    ¬AllEnded 0 ((Shop.stale.endBenefits 0 Shop.reopened.benefits Shop.reopened.entitlements).commit
        Shop.reopened) ∧
      ¬AllExpired 0 ((Shop.stale.endBenefits 0 Shop.reopened.benefits
        Shop.reopened.entitlements).commit Shop.reopened) ∧
      ¬AllExpired 0 (Shop.stale.pause 0 Shop.reopened.entitlements Shop.reopened) := by
  unfold AllEnded AllExpired
  decide +kernel

end FastKit
