import FastKit.Transaction.Baseless
import FastKit.Services.Reconciliation

/-! # An answer is taken in without looking back

Up to the first commit of an answer nothing is forgotten but on the way to an error, and a
delivery only starts over from a store that was committed.
-/

namespace FastKit
open Transaction Transaction.Program

theorem flush_baseless : Baseless flush := by
  refine (baseless_remembered _).bind fun _ => (baseless_query _).bind fun t => ?_
  cases t with
  | none => exact baseless_raise _
  | some t => exact (baseless_execute _).bind fun _ => baseless_remember _

theorem commit_baseless : Baseless commit := flush_baseless.bind fun _ => baseless_publish

theorem commit_publishes : Publishes commit := publishes_bind fun _ => publishes_publish

theorem persist_baseless : Baseless persist := by
  refine (flush_baseless.attempt fun e m b v => ?_).bind fun _ => baseless_publish
  exact ⟨_, _, rfl, fun _ _ => ⟨_, rfl⟩⟩

theorem record_baseless (tenant : Option ℕ) (user : ℕ) (level : LogLevel) (message : LogMessage) :
    Baseless (record tenant user level message) :=
  (baseless_execute _).bind fun _ => persist_baseless

theorem subscriptionOf_baseless (id : ℕ) : Baseless (subscriptionOf id) := by
  refine (baseless_remembered _).bind fun row => ?_
  cases row with
  | some row => exact baseless_pure row
  | none =>
    refine (baseless_query _).bind fun _ => (baseless_require _ _).bind fun row => ?_
    exact (baseless_remember _).bind fun _ => baseless_pure row

theorem refresh_baseless (id : ℕ) : Baseless (refresh id) := by
  refine (baseless_query _).bind fun _ => (baseless_require _ _).bind fun row => ?_
  exact (baseless_remember _).bind fun _ => baseless_pure row

theorem assign_baseless (id : ℕ) (f : Subscription → Subscription) : Baseless (assign id f) :=
  (subscriptionOf_baseless id).bind fun _ => baseless_remember _

theorem insertOrRead_baseless {α κ : Type} [Keyed α κ] [DecidableEq κ] (table : Store → Table α)
    (put : Table α → Store → Store) (read : α → Bool) (make : ℕ → α) :
    Baseless (insertOrRead table put read make) := by
  refine (baseless_query _).bind fun found => ?_
  cases found with
  | some row => exact baseless_pure _
  | none =>
    refine flush_baseless.bind fun _ => (baseless_query _).bind fun inserted => ?_
    cases inserted with
    | some p => exact (baseless_execute _).bind fun _ => baseless_pure _
    | none => exact baseless_query _

theorem holdSubscription_baseless (id : ℕ) : Baseless (holdSubscription id) := by
  refine (baseless_query _).bind fun _ => (baseless_require _ _).bind fun row => ?_
  exact (baseless_remember _).bind fun _ => baseless_pure row

theorem writeBenefits_baseless (p : SubscriptionBenefit → Bool)
    (f : SubscriptionBenefit → SubscriptionBenefit) (h : Still f) :
    Baseless (writeBenefits p f h) := baseless_execute _

theorem writeEntitlements_baseless (p : UserEntitlement → Bool)
    (f : UserEntitlement → UserEntitlement) (h : Still f) :
    Baseless (writeEntitlements p f h) := baseless_execute _

theorem endBenefits_baseless (id : ℕ) : Baseless (endBenefits id) :=
  (writeBenefits_baseless _ _ _).bind fun _ => writeEntitlements_baseless _ _ _

theorem promiseEntitlements_baseless (subscription : Subscription) (moment : ℕ)
    (promises : List PlanEntitlement) :
    Baseless (promiseEntitlements subscription moment promises) := by
  induction promises with
  | nil => exact baseless_pure []
  | cons promise rest ih =>
    refine (insertOrRead_baseless _ _ _ _).bind fun _ => (baseless_require _ _).bind fun row => ?_
    refine (writeEntitlements_baseless _ _ _).bind fun _ => ?_
    exact ih.bind fun _ => baseless_pure _

theorem reconcileEntitlements_baseless (subscription : Subscription) :
    Baseless (reconcileEntitlements subscription) := by
  refine (baseless_query _).bind fun _ => (baseless_query _).bind fun _ => ?_
  refine (promiseEntitlements_baseless _ _ _).bind fun _ => ?_
  exact (writeEntitlements_baseless _ _ _).bind fun _ => baseless_pure _

theorem promiseBenefits_baseless (subscriptionId anchor moment : ℕ)
    (entitlements : List UserEntitlement) (benefits : List Benefit) :
    Baseless (promiseBenefits subscriptionId anchor moment entitlements benefits) := by
  induction benefits with
  | nil => exact baseless_pure []
  | cons benefit rest ih =>
    refine (baseless_query _).bind fun found => ?_
    cases found with
    | some row =>
      exact (writeBenefits_baseless _ _ _).bind fun _ => ih.bind fun _ => baseless_pure _
    | none =>
      refine (baseless_require _ _).bind fun entitlement => ?_
      refine (insertOrRead_baseless _ _ _ _).bind fun _ => (baseless_require _ _).bind fun row => ?_
      exact ih.bind fun _ => baseless_pure _

theorem snapshotBenefits_baseless (subscription : Subscription)
    (entitlements : List UserEntitlement) : Baseless (snapshotBenefits subscription entitlements) := by
  refine (baseless_query _).bind fun _ => (baseless_query _).bind fun _ => ?_
  refine (promiseBenefits_baseless _ _ _ _ _).bind fun _ => ?_
  exact (writeBenefits_baseless _ _ _).bind fun _ => baseless_pure _

/-- An activation commits before it delivers anything. -/
theorem activate_baseless (id : ℕ) : Baseless (activate id) := by
  refine flush_baseless.bind fun _ => (holdSubscription_baseless id).bind fun subscription => ?_
  refine Baseless.ite ?_ ?_
  · refine (writeEntitlements_baseless _ _ _).bind fun _ => ?_
    refine (writeBenefits_baseless _ _ _).bind fun _ => ?_
    exact commit_baseless.publishes_bind commit_publishes
  · refine (reconcileEntitlements_baseless _).bind fun _ => ?_
    refine (snapshotBenefits_baseless _ _).bind fun _ => (baseless_query _).bind fun _ => ?_
    refine (baseless_remember _).bind fun _ => ?_
    exact commit_baseless.publishes_bind commit_publishes

theorem releaseCycle_baseless (id : ℕ) : Baseless (releaseCycle id) := by
  refine (baseless_query _).bind fun _ => (writeBenefits_baseless _ _ _).bind fun _ => ?_
  exact commit_baseless.publishes_bind commit_publishes

theorem refreshExpired_baseless (ids : List ℕ) : Baseless (refreshExpired ids) := by
  induction ids with
  | nil => exact baseless_pure ()
  | cons id rest ih => exact (subscriptionOf_baseless id).bind fun _ => ih

theorem oursOf_baseless (integration : Integration) (user : User) :
    Baseless (oursOf integration user) :=
  (baseless_query _).bind fun _ => (refreshExpired_baseless _).bind fun _ => baseless_pure _

theorem hold_baseless (id : ℕ) (statedAt : Option ℕ) : Baseless (hold id statedAt) := by
  refine (baseless_query _).bind fun _ => Baseless.ite ?_ (baseless_pure false)
  exact (baseless_execute _).bind fun _ => (refresh_baseless id).bind fun _ => baseless_pure true

theorem moveRow_baseless (id : ℕ) (still : Subscription → Bool) (f : Subscription → Subscription) :
    Baseless (moveRow id still f) := by
  refine (baseless_remember _).bind fun _ => (baseless_query _).bind fun _ => Baseless.ite ?_ ?_
  · refine (baseless_query _).bind fun _ => (baseless_require _ _).bind fun _ => ?_
    exact (baseless_execute _).bind fun _ => baseless_pure true
  · exact (refresh_baseless id).bind fun _ => baseless_pure false

theorem repoint_baseless (integration : Integration) (id : ℕ) (purchase : ProviderPurchase) :
    Baseless (repoint integration id purchase) := by
  refine (subscriptionOf_baseless id).bind fun _ => (baseless_query _).bind fun product => ?_
  cases product with
  | none => exact baseless_pure false
  | some product =>
    refine Baseless.ite (baseless_pure false) ((moveRow_baseless _ _ _).bind fun _ => ?_)
    refine Baseless.ite (baseless_pure false) ((baseless_query _).bind fun _ => ?_)
    refine (baseless_require _ _).bind fun _ => Baseless.ite ?_ (baseless_pure true)
    exact (releaseCycle_baseless id).bind fun _ => baseless_pure true

theorem close_baseless (id : ℕ) (status : SubscriptionStatus) (reason : String) :
    Baseless (close id status reason) := by
  refine (subscriptionOf_baseless id).bind fun _ => Baseless.ite (baseless_pure 0) ?_
  refine (baseless_query _).bind fun _ => (assign_baseless _ _).bind fun _ => ?_
  refine (endBenefits_baseless id).bind fun _ => ?_
  exact (record_baseless _ _ _ _).bind fun _ => baseless_pure 1

theorem carry_baseless (id : ℕ) (purchase : ProviderPurchase) : Baseless (carry id purchase) :=
  (baseless_query _).bind fun _ => assign_baseless _ _

theorem adopt_baseless (id : ℕ) (purchase : ProviderPurchase) : Baseless (adopt id purchase) := by
  refine (subscriptionOf_baseless id).bind fun _ => Baseless.ite (baseless_pure false) ?_
  refine (baseless_query _).bind fun found => ?_
  cases found with
  | none => exact (assign_baseless _ _).bind fun _ => baseless_pure false
  | some found =>
    refine (subscriptionOf_baseless _).bind fun _ => Baseless.ite (baseless_pure false) ?_
    refine (assign_baseless _ _).bind fun _ => flush_baseless.bind fun _ => ?_
    refine (assign_baseless _ _).bind fun _ => ?_
    exact (close_baseless _ _ _).bind fun _ => baseless_pure true

theorem handOver_baseless (id : ℕ) (user : User) (purchase : ProviderPurchase) :
    Baseless (handOver id user purchase) := by
  refine (subscriptionOf_baseless id).bind fun _ => (moveRow_baseless _ _ _).bind fun _ => ?_
  refine Baseless.ite (baseless_pure 0) ((endBenefits_baseless id).bind fun _ => ?_)
  refine (carry_baseless id purchase).bind fun _ => ?_
  exact commit_baseless.publishes_bind commit_publishes

theorem align_baseless (id : ℕ) (purchase : ProviderPurchase) (statedAt : Option ℕ) :
    Baseless (align id purchase statedAt) := by
  refine (baseless_query _).bind fun _ => Baseless.ite (close_baseless _ _ _) ?_
  refine Baseless.ite (close_baseless _ _ _) ((adopt_baseless id purchase).bind fun adopted => ?_)
  have hrest : ∀ held : Bool, Baseless (if !held then pure 1 else do
      let before ← subscriptionOf id
      carry id purchase
      let after ← subscriptionOf id
      if snapshot before = snapshot after then pure 0
      else
        let _ ← activate id
        pure 1 : Db ℕ) := by
    refine fun held => Baseless.ite (baseless_pure 1) ((subscriptionOf_baseless id).bind fun _ => ?_)
    refine (carry_baseless id purchase).bind fun _ => (subscriptionOf_baseless id).bind fun _ => ?_
    exact Baseless.ite (baseless_pure 0) ((activate_baseless id).bind fun _ => baseless_pure 1)
  exact Baseless.ite ((hold_baseless id statedAt).bind hrest) ((baseless_pure true).bind hrest)

theorem openPurchase_baseless {again : Db ℕ} (ha : Baseless again) (integration : Integration)
    (user : User) (purchase : ProviderPurchase) (statedAt : Option ℕ) :
    Baseless (openPurchase again integration user purchase statedAt) := by
  refine (baseless_query _).bind fun _ => Baseless.ite (baseless_pure 0) ?_
  refine (baseless_query _).bind fun product => ?_
  have hunmapped : Baseless (do
      record integration.tenantId user.id .warning
        (.nothingMaps purchase.productReference user.id)
      pure 0 : Db ℕ) := (record_baseless _ _ _ _).bind fun _ => baseless_pure 0
  cases product with
  | none => exact hunmapped
  | some product =>
    cases purchase.externalId with
    | none => exact hunmapped
    | some transaction =>
      refine (insertOrRead_baseless _ _ _ _).bind fun _ => (baseless_require _ _).bind fun row => ?_
      refine Baseless.ite ?_ ?_
      · refine (baseless_remember _).bind fun _ => (carry_baseless _ _).bind fun _ => ?_
        exact (activate_baseless _).bind fun _ => baseless_pure 1
      · exact (subscriptionOf_baseless _).bind fun _ => Baseless.ite ha (handOver_baseless _ _ _)

theorem settleRow_baseless (integration : Integration) (id : ℕ) (purchase : ProviderPurchase)
    (statedAt : Option ℕ) : Baseless (settleRow integration id purchase statedAt) := by
  refine (hold_baseless id statedAt).bind fun _ => Baseless.ite (baseless_pure 0) ?_
  refine (subscriptionOf_baseless id).bind fun _ => Baseless.ite (baseless_pure 0) ?_
  refine (repoint_baseless _ _ _).bind fun moved => ?_
  have hrest : ∀ held : Bool, Baseless (if !held then pure 1 else do
      let changes ← align id purchase statedAt
      if !moved then pure changes
      else
        let _ ← activate id
        pure 1 : Db ℕ) := by
    refine fun held => Baseless.ite (baseless_pure 1) ((align_baseless _ _ _).bind fun changes => ?_)
    exact Baseless.ite (baseless_pure changes) ((activate_baseless id).bind fun _ => baseless_pure 1)
  exact Baseless.ite ((hold_baseless id statedAt).bind hrest) ((baseless_pure true).bind hrest)

theorem settle_baseless (integration : Integration) (user : User) (statedAt : Option ℕ)
    (again : ℕ) (purchase : ProviderPurchase) (ours : Ours) :
    Baseless (settle integration user statedAt again purchase ours) := by
  induction again generalizing ours with
  | zero => exact baseless_raise _
  | succ again ih =>
    unfold settle
    split
    · exact (settleRow_baseless _ _ _ _).bind fun _ => baseless_pure _
    · refine (baseless_query _).bind fun same => ?_
      cases same with
      | some id =>
        refine (subscriptionOf_baseless id).bind fun _ => ?_
        exact (settleRow_baseless _ _ _ _).bind fun _ => baseless_pure _
      | none =>
        refine (openPurchase_baseless ?_ _ _ _ _).bind fun _ => baseless_pure _
        exact (ih []).bind fun _ => baseless_pure _

theorem settleEach_baseless (integration : Integration) (user : User) (statedAt : Option ℕ)
    (held : List ProviderPurchase) (ours : Ours) :
    Baseless (settleEach integration user statedAt held ours) := by
  induction held generalizing ours with
  | nil => exact baseless_pure _
  | cons purchase rest ih =>
    refine (settle_baseless _ _ _ _ _ _).bind fun _ => (refreshExpired_baseless _).bind fun _ => ?_
    exact (ih _).bind fun _ => baseless_pure _

theorem closeLeftovers_baseless (statedAt : Option ℕ) (ids : List ℕ) :
    Baseless (closeLeftovers statedAt ids) := by
  induction ids with
  | nil => exact baseless_pure 0
  | cons id rest ih =>
    refine (hold_baseless id statedAt).bind fun _ => Baseless.ite ih ?_
    refine (subscriptionOf_baseless id).bind fun _ => ?_
    have hrest : ∀ changes : ℕ, Baseless (do
        let others ← closeLeftovers statedAt rest
        pure (changes + others) : Db ℕ) := fun _ => ih.bind fun _ => baseless_pure _
    exact Baseless.ite ((close_baseless _ _ _).bind hrest) ((baseless_pure 0).bind hrest)

theorem apply_baseless (integration : Integration) (user : User) (held : List ProviderPurchase)
    (complete : Bool) (statedAt : Option ℕ) :
    Baseless (apply integration user held complete statedAt) := by
  refine (oursOf_baseless _ _).bind fun _ => (settleEach_baseless _ _ _ _ _).bind fun settled => ?_
  have hrest : ∀ closed : ℕ, Baseless (do
      commit
      pure (settled.1 + closed) : Db ℕ) := fun _ => commit_baseless.bind fun _ => baseless_pure _
  exact Baseless.ite ((closeLeftovers_baseless _ _).bind hrest) ((baseless_pure 0).bind hrest)

theorem apply_publishes (integration : Integration) (user : User) (held : List ProviderPurchase)
    (complete : Bool) (statedAt : Option ℕ) :
    Publishes (apply integration user held complete statedAt) := by
  refine publishes_bind fun _ => publishes_bind fun settled => ?_
  have hrest : ∀ closed : ℕ, Publishes (do
      commit
      pure (settled.1 + closed) : Db ℕ) := fun _ => commit_publishes.bind
  exact Publishes.ite (publishes_bind hrest) (publishes_bind hrest)

end FastKit
