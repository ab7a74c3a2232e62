import FastKit.Services.Delivery

/-! # The reconciliation service

What a provider answers is the state of a purchase: a subscription is opened, moved,
handed over, aligned or closed by it. A stated instant orders what is said of a row.
-/

namespace FastKit
open Transaction Transaction.Program

/-- The subscriptions of an account by the product they were bought as, each product once. -/
abbrev Ours := List (ℕ × ℕ)

/-- A gateway that names its own state is believed, and one that leaves it to the dates has
it read off them. -/
def statusOf (purchase : ProviderPurchase) : SubscriptionStatus :=
  match purchase.status with
  | some status => status
  | none =>
    if purchase.autoResumeAt.isSome then .suspended
    else if purchase.graceEndsAt.isSome then .gracePeriod
    else if purchase.trial then .trialing
    else .active

/-- A purchase that never renews has no deadline, so nothing about it can be past. -/
def isOver (purchase : ProviderPurchase) (moment : ℕ) : Bool :=
  match purchase.status with
  | some status => status.closed
  | none => (purchase.graceEndsAt <|> purchase.periodEndsAt).any (· ≤ moment)

/-- Every state a provider can report, written over a row. -/
def carried (purchase : ProviderPurchase) (moment : ℕ) (s : Subscription) : Subscription :=
  { s with
    status := statusOf purchase
    benefitStatus := if purchase.autoResumeAt.isSome then .paused else .active
    environment := some purchase.environment
    startedAt := purchase.firstPurchasedAt <|> s.startedAt <|> purchase.purchasedAt <|> some moment
    currentPeriodStartedAt := purchase.purchasedAt
    currentPeriodEndsAt := purchase.periodEndsAt
    accessUntil := purchase.graceEndsAt <|> purchase.periodEndsAt
    graceUntil := purchase.graceEndsAt
    trialEndsAt := if purchase.trial then purchase.periodEndsAt else none
    cancelAtPeriodEnd := purchase.unsubscribedAt.isSome
    canceledAt := purchase.unsubscribedAt
    expiredAt := none
    provider := some ⟨purchase.store, purchase.ownership, purchase.periodType, purchase.recurring⟩ }

/-- What a row says that an activation follows. -/
def snapshot (s : Subscription) :
    SubscriptionStatus × BenefitStatus × Option ℕ × Option ℕ × Bool :=
  (s.status, s.benefitStatus, s.accessUntil, s.graceUntil, s.cancelAtPeriodEnd)

/-- The dictionary with the row of a product, which replaces the one it had. -/
def putOurs (ours : Ours) (entry : ℕ × ℕ) : Ours :=
  if ours.any (·.1 == entry.1) then ours.map (fun e => if e.1 == entry.1 then entry else e)
  else ours ++ [entry]

/-- The rows of an account in an integration with the product each was bought as. -/
def listedOurs (integrationId userId : ℕ) (s : Store) : List (ℕ × ℕ) :=
  s.subscriptions.rows.filterMap (fun row =>
    if row.integrationId = some integrationId ∧ row.userId = userId then
      row.externalProductId.bind (fun id =>
        (s.catalog.externalProducts.find? (·.id == id)).map (fun p => (p.externalId, row.id)))
    else none)

/-- Loads what is not in memory of the rows a session holds. -/
def refreshExpired : List ℕ → Db Unit
  | [] => pure ()
  | id :: rest => do
    let _ ← subscriptionOf id
    refreshExpired rest

/-- Both sides name a purchase by what the store sold. -/
def oursOf (integration : Integration) (user : User) : Db Ours := do
  let listed ← query (listedOurs integration.id user.id)
  refreshExpired (listed.map Prod.snd)
  pure (listed.foldl putOurs [])

/-- Whether a word stated then may be taken for a row. -/
def orderly (statedAt : Option ℕ) (row : Subscription) : Bool :=
  statedAt.all (fun stated => row.statedAt.all (· ≤ stated))

/-- Takes the stamp of a word by a conditioned write, and reads the row again under it. -/
def hold (id : ℕ) (statedAt : Option ℕ) : Db Bool := do
  if (← query (·.subscriptions.get id)).any (orderly statedAt) then
    execute (fun s => { s with
      subscriptions := s.subscriptions.modify (·.id == id)
        (fun r => { r with statedAt := statedAt <|> r.statedAt }) (fun _ => ⟨rfl, rfl⟩) })
    let _ ← refresh id
    pure true
  else pure false

/-- The active product an integration sells under a reference. -/
def mappedProduct (integrationId reference : ℕ) (s : Store) : Option ExternalProduct :=
  s.catalog.externalProducts.find?
    (fun p => p.integrationId == integrationId && p.externalId == reference && p.active)

/-- A row of the subscriptions rewritten where it still is what it was read as, and whether
it was. The database refuses a key that is taken. -/
def moveRow (id : ℕ) (still : Subscription → Bool) (f : Subscription → Subscription) :
    Db Bool := do
  -- the copy in memory follows the statement whatever row it met
  remember (Memory.sync id f)
  if (← query (·.subscriptions.get id)).any still then
    let t ← require .integrity (← query (·.subscriptions.alter (·.id == id) f))
    execute (fun s => { s with subscriptions := t })
    pure true
  else
    let _ ← refresh id
    pure false

/-- Buying a different product keeps the same purchase, so the row follows what was bought. -/
def repoint (integration : Integration) (id : ℕ) (purchase : ProviderPurchase) : Db Bool := do
  let subscription ← subscriptionOf id
  match ← query (mappedProduct integration.id purchase.productReference) with
  | none => pure false
  | some product =>
    if some product.id = subscription.externalProductId then pure false
    else
      let moved ← moveRow id (·.externalProductId == subscription.externalProductId)
        (fun r => { r with externalProductId := some product.id, planId := product.planId })
      if !moved then pure false
      else
        let plan ← require .attributeError
          (← query (·.catalog.plans.find? (·.id == product.planId)))
        -- somebody moving to another plan is starting over
        if plan.resumeDeliveryPolicy = .newCycle then
          let _ ← releaseCycle id
          pure true
        else pure true

/-- A purchase answered for is no longer a leftover, whichever product it was listed under. -/
def answered (ours : Ours) (id : Option ℕ) : Ours := ours.filter (fun e => some e.2 != id)

def samePurchase (integrationId userId : ℕ) (purchase : ProviderPurchase) (s : Store) :
    Option ℕ :=
  purchase.externalId.bind (fun transaction =>
    (s.subscriptions.find (fun r => r.integrationId == some integrationId && r.userId == userId &&
      r.externalId == some transaction)).map (·.id))

/-- The row of a transaction, wherever the store has since put it. -/
def holds (integrationId : ℕ) (externalId : Option ℕ) (r : Subscription) : Bool :=
  r.integrationId == some integrationId && externalId.isSome && r.externalId == externalId

def close (id : ℕ) (status : SubscriptionStatus) (reason : String) : Db ℕ := do
  let subscription ← subscriptionOf id
  -- closing what is already closed is not a change
  if subscription.status = status then pure 0
  else
    let moment ← now
    assign id (fun r => { r with
      status := status
      expiredAt := some moment
      accessUntil := some moment
      benefitStatus := .ended })
    endBenefits id
    record subscription.tenantId subscription.userId .warning (.closed id status reason)
    pure 1

/-- The store names the period it is selling by a transaction of its own, and the row takes
its name. -/
def adopt (id : ℕ) (purchase : ProviderPurchase) : Db Bool := do
  let subscription ← subscriptionOf id
  if purchase.externalId.isNone || purchase.externalId == subscription.externalId then pure false
  else
    let found ← query (fun s => subscription.integrationId.bind (fun integration =>
      s.subscriptions.find (holds integration purchase.externalId)))
    match found with
    | none =>
      assign id (fun r => { r with externalId := purchase.externalId })
      pure false
    | some found =>
      let holder ← subscriptionOf found.id
      -- a transaction of another account is never taken from it
      if holder.userId ≠ subscription.userId then pure false
      else
        assign holder.id (fun r => { r with externalId := none })
        flush
        assign id (fun r => { r with externalId := purchase.externalId })
        let _ ← close holder.id .expired "the purchase moved to another product"
        pure true

def carry (id : ℕ) (purchase : ProviderPurchase) : Db Unit := do
  let moment ← now
  assign id (carried purchase moment)

/-- The receipt is now somebody else's. -/
def handOver (id : ℕ) (user : User) (purchase : ProviderPurchase) : Db ℕ := do
  let subscription ← subscriptionOf id
  let moved ← moveRow id (·.userId == subscription.userId) (fun r => { r with userId := user.id })
  if !moved then pure 0
  else
    endBenefits id
    carry id purchase
    commit
    record subscription.tenantId user.id .info (.receiptPassedOn id subscription.userId user.id)
    -- whoever holds it now just paid, and that is a cycle of their own
    let _ ← releaseCycle id
    let _ ← activate id
    pure 1

def align (id : ℕ) (purchase : ProviderPurchase) (statedAt : Option ℕ) : Db ℕ := do
  let moment ← now
  if purchase.refundedAt.isSome then close id .revoked "the provider refunded it"
  else if isOver purchase moment then
    close id .expired "the period the provider reports has ended"
  else
    let adopted ← adopt id purchase
    -- closing the row that carried the purchase commits, so the word is taken again
    let held ← if adopted then hold id statedAt else pure true
    if !held then pure 1
    else
      let before ← subscriptionOf id
      carry id purchase
      let after ← subscriptionOf id
      if snapshot before = snapshot after then pure 0
      else
        let _ ← activate id
        pure 1

/-- The row before anything is carried to it. -/
def openedRow (integration : Integration) (user : User) (product : ExternalProduct)
    (purchase : ProviderPurchase) (statedAt : Option ℕ) (id : ℕ) : Subscription :=
  { id := id
    tenantId := integration.tenantId
    userId := user.id
    planId := product.planId
    integrationId := some integration.id
    externalProductId := some product.id
    externalId := purchase.externalId
    status := .pending
    benefitStatus := .active
    environment := none
    startedAt := none
    currentPeriodStartedAt := none
    currentPeriodEndsAt := none
    accessUntil := none
    trialEndsAt := none
    graceUntil := none
    cancelAtPeriodEnd := false
    canceledAt := none
    expiredAt := none
    statedAt := statedAt
    provider := none }

/-- Opens a purchase no row of the account answers for. `again` settles it where a row of the
account turns out to carry it. -/
def openPurchase (again : Db ℕ) (integration : Integration) (user : User)
    (purchase : ProviderPurchase) (statedAt : Option ℕ) : Db ℕ := do
  let moment ← now
  if isOver purchase moment then pure 0
  else
    match ← query (mappedProduct integration.id purchase.productReference), purchase.externalId with
    | some product, some _ =>
      let (row, inserted) ← require .attributeError
        (← insertOrRead Store.subscriptions (fun t s => { s with subscriptions := t })
          (holds integration.id purchase.externalId)
          (openedRow integration user product purchase statedAt))
      if inserted then
        remember (Memory.load row)
        carry row.id purchase
        let _ ← activate row.id
        pure 1
      else
        let settled ← subscriptionOf row.id
        if settled.userId = user.id then again else handOver row.id user purchase
    | _, _ =>
      record integration.tenantId user.id .warning (.nothingMaps purchase.productReference user.id)
      pure 0

def settleRow (integration : Integration) (id : ℕ) (purchase : ProviderPurchase)
    (statedAt : Option ℕ) : Db ℕ := do
  if !(← hold id statedAt) then pure 0
  else
    let subscription ← subscriptionOf id
    -- a gateway never takes a paid subscription back to waiting
    if statusOf purchase = .pending ∧ subscription.status ≠ .pending then pure 0
    else
      let moved ← repoint integration id purchase
      -- a fresh cycle commits as it opens, so the word is taken again
      let held ← if moved then hold id statedAt else pure true
      if !held then pure 1
      else
        let changes ← align id purchase statedAt
        if !moved then pure changes
        else
          let _ ← activate id
          pure 1

/-- Settles one purchase of an answer, with what is left of the rows nobody answered for. A
purchase whose opening turned out to be lost is settled once more, with no leftovers. -/
def settle (integration : Integration) (user : User) (statedAt : Option ℕ) :
    ℕ → ProviderPurchase → Ours → Db (ℕ × Ours)
  | 0, _, _ => raise .recursion
  | again + 1, purchase, ours => do
    match ours.find? (·.1 == purchase.productReference) with
    | some (product, id) =>
      let changes ← settleRow integration id purchase statedAt
      pure (changes, ours.filter (·.1 != product))
    | none =>
      match ← query (samePurchase integration.id user.id purchase) with
      | some id =>
        let _ ← subscriptionOf id
        let changes ← settleRow integration id purchase statedAt
        pure (changes, answered ours (some id))
      | none =>
        let changes ← openPurchase
          (do let (changes, _) ← settle integration user statedAt again purchase []; pure changes)
          integration user purchase statedAt
        pure (changes, ours)

/-- How often one purchase may be settled again: a lost opening is met by the row that won. -/
def settleDepth : ℕ := 3

def settleEach (integration : Integration) (user : User) (statedAt : Option ℕ) :
    List ProviderPurchase → Ours → Db (ℕ × Ours)
  | [], ours => pure (0, ours)
  | purchase :: rest, ours => do
    let (changes, ours) ← settle integration user statedAt settleDepth purchase ours
    refreshExpired (ours.map Prod.snd)
    let (others, ours) ← settleEach integration user statedAt rest ours
    pure (changes + others, ours)

/-- Closes what an answer that lists everything did not list. -/
def closeLeftovers (statedAt : Option ℕ) : List ℕ → Db ℕ
  | [] => pure 0
  | id :: rest => do
    if !(← hold id statedAt) then closeLeftovers statedAt rest
    else
      let subscription ← subscriptionOf id
      let changes ← if subscription.status.eligible
        then close id .expired "the provider no longer holds it for this account" else pure 0
      let others ← closeLeftovers statedAt rest
      pure (changes + others)

/-- The one place that decides what a subscription is. -/
def apply (integration : Integration) (user : User) (held : List ProviderPurchase)
    (complete : Bool) (statedAt : Option ℕ) : Db ℕ := do
  let ours ← oursOf integration user
  let (changes, ours) ← settleEach integration user statedAt held ours
  let closed ← if complete then closeLeftovers statedAt (ours.map Prod.snd) else pure 0
  commit
  pure (changes + closed)

end FastKit
