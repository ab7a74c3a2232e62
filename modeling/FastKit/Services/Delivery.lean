import FastKit.Services.Credits

/-! # The delivery service

The engine that turns a live subscription into what its account receives: activation,
the due pass, the retry pass, and the grant of one cycle that all of them go through.
-/

namespace FastKit
open Transaction Transaction.Program

/-- A grant still processing after this belonged to a process that is gone. -/
def abandonedAfter : ℕ := 30 * 60 * Calendar.second

def maxAttempts : ℕ := 5

def dueBatch : ℕ := 100

def expiryBatch : ℕ := 200

def retryBatch : ℕ := 50

/-- What a subscription hands over in the state it is in. -/
def benefitPolicyOf (subscription : Subscription) (plan : Plan) : BenefitPolicy :=
  match subscription.status with
  | .trialing => plan.trialBenefitPolicy
  | .gracePeriod => plan.graceBenefitPolicy
  | _ => .all

def cycleKey (moment : ℕ) : CycleKey := .slot (moment / Calendar.second)

/-- The first slot of a recurring benefit is named as the due pass names it, and a cycle
opened again keeps a key of its own. -/
def activationKey (benefit : SubscriptionBenefit) (slot : ℕ) : CycleKey :=
  if benefit.cadence.interval.isSome && benefit.cycle == 0 then cycleKey slot
  else .activation benefit.cycle

/-- When a benefit new to the subscription is owed first. -/
def firstDue (benefit : SubscriptionBenefit) (moment : ℕ) : Option ℕ :=
  match benefit.cadence with
  | .recurring every => some (landing every benefit.anchorAt moment)
  | _ => if benefit.grantOnActivation then some benefit.anchorAt else none

/-- A benefit that comes back owes the slot it lands in and none of the ones before it. -/
def resume (benefit : SubscriptionBenefit) (anchor moment : ℕ) : SubscriptionBenefit :=
  if benefit.status = .active then benefit
  else
    match benefit.cadence with
    | .recurring every =>
      { benefit with
        status := .active
        nextGrantAt := some (landing every
          (match benefit.lastGrantAt with
            | some last => addInterval last every
            | none => anchor) moment) }
    | _ => { benefit with status := .active }

/-- Which slot a benefit behind on its cycles delivers now, if any, and the benefit with
what becomes of the ones it missed. -/
def resolveDueSlot (benefit : SubscriptionBenefit) (moment : ℕ) :
    Except Fault (Option ℕ × SubscriptionBenefit) :=
  match benefit.nextGrantAt, benefit.cadence.interval with
  | none, _ => .error .typeError
  | _, none => .error .keyError
  | some due, some every =>
    if moment < addInterval due every then .ok (some due, benefit)
    else
      let latest := landing every due moment
      match benefit.missedCyclePolicy with
      | .catchUp => .ok (some due, benefit)
      | .latestOnly => .ok (some latest, benefit)
      | .skip => .ok (none, { benefit with nextGrantAt := some (addInterval latest every) })

/-- Writes the rows of a table of benefits, which keeps whose they are. -/
def writeBenefits (p : SubscriptionBenefit → Bool) (f : SubscriptionBenefit → SubscriptionBenefit)
    (h : Still f) : Db Unit :=
  execute (fun s => { s with benefits := s.benefits.modify p f h })

def writeEntitlements (p : UserEntitlement → Bool) (f : UserEntitlement → UserEntitlement)
    (h : Still f) : Db Unit :=
  execute (fun s => { s with entitlements := s.entitlements.modify p f h })

/-- The grant row as its delivery leaves it. A grant is given back its reservation only
here, so the keys it holds may only become fewer. -/
def writeGrant (id : ℕ) (f : BenefitGrant → BenefitGrant) : Db Unit := do
  let t ← require .integrity (← query (·.grants.alter (·.id == id) f))
  execute (fun s => { s with grants := t })

/-- The benefit as an activation keeps it, and as the store has it otherwise. -/
def benefitOf (id : ℕ) : Db SubscriptionBenefit := do
  match ← remembered (·.benefits.find? (·.id == id)) with
  | some benefit => pure benefit
  | none => require .attributeError (← query (·.benefits.get id))

def refreshBenefit (id : ℕ) : Db SubscriptionBenefit := do
  let row ← require .invalidRequest (← query (·.benefits.get id))
  remember (Memory.keepBenefit row)
  pure row

def grantOf (id : ℕ) : Db BenefitGrant := do
  require .attributeError (← query (·.grants.get id))

/-- Serializes benefit changes with receipt transfers and subscription closure. -/
def holdSubscription (id : ℕ) : Db Subscription := do
  let row ← require .attributeError (← query (·.subscriptions.get id))
  remember (Memory.load row)
  pure row

def planOf (subscription : Subscription) : Db Plan := do
  match ← remembered (·.plans.find? (·.id == subscription.planId)) with
  | some plan => pure plan
  | none =>
    let plan ← require .attributeError
      (← query (·.catalog.plans.find? (·.id == subscription.planId)))
    remember (Memory.keepPlan plan)
    pure plan

def expireEntitlements (subscriptionId : ℕ) : Db Unit :=
  writeEntitlements (·.subscriptionId == subscriptionId) (fun e => { e with status := .expired })
    (fun _ => ⟨rfl, rfl⟩)

def endBenefits (subscriptionId : ℕ) : Db Unit := do
  writeBenefits (·.subscriptionId == subscriptionId)
    (fun b => { b with status := .ended, nextGrantAt := none }) (fun _ => ⟨rfl, rfl⟩)
  expireEntitlements subscriptionId

/-- What the plan promises, one entitlement after the other: each is opened where the
subscription does not hold it. -/
def promiseEntitlements (subscription : Subscription) (moment : ℕ) :
    List PlanEntitlement → Db (List UserEntitlement)
  | [] => pure []
  | promise :: rest => do
    let (row, _) ← require .attributeError
      (← insertOrRead Store.entitlements (fun t s => { s with entitlements := t })
        (fun e => e.subscriptionId == subscription.id && e.entitlementId == promise.entitlementId)
        (fun id => ⟨id, subscription.id, promise.entitlementId, .active, some moment, none, none⟩))
    writeEntitlements (·.id == row.id)
      (fun e => { e with status := .active, revokedAt := none, expiresAt := subscription.accessUntil })
      (fun _ => ⟨rfl, rfl⟩)
    let promised ← promiseEntitlements subscription moment rest
    pure (row :: promised)

/-- A subscription that moved to another plan holds what the plan it is on now promises. -/
def reconcileEntitlements (subscription : Subscription) : Db (List UserEntitlement) := do
  let planEntitlements ← query (·.catalog.planEntitlements.filter (·.planId == subscription.planId))
  let moment ← now
  let promised ← promiseEntitlements subscription moment planEntitlements
  writeEntitlements
    (fun e => e.subscriptionId == subscription.id &&
      !promised.any (·.entitlementId == e.entitlementId))
    (fun e => { e with status := .expired }) (fun _ => ⟨rfl, rfl⟩)
  pure promised

def snapshotOf (subscriptionId : ℕ) (benefit : Benefit) (userEntitlementId anchor moment id : ℕ) :
    SubscriptionBenefit :=
  let snapshot : SubscriptionBenefit :=
    { id := id
      subscriptionId := subscriptionId
      benefitId := benefit.id
      userEntitlementId := userEntitlementId
      productId := benefit.productId
      currencyId := benefit.currencyId
      status := .active
      benefitType := benefit.type
      quantity := benefit.quantity
      cadence := benefit.cadence
      grantOnActivation := benefit.grantOnActivation
      missedCyclePolicy := benefit.missedCyclePolicy
      anchorAt := anchor
      cycle := 0
      lastGrantAt := none
      nextGrantAt := none }
  { snapshot with nextGrantAt := firstDue snapshot moment }

/-- The benefits promised, one after the other: each is resumed where the subscription has
it and snapshot where it has not. -/
def promiseBenefits (subscriptionId anchor moment : ℕ) (entitlements : List UserEntitlement) :
    List Benefit → Db (List ℕ)
  | [] => pure []
  | benefit :: rest => do
    match ← query (·.benefits.find
        (fun b => b.subscriptionId == subscriptionId && b.benefitId == benefit.id)) with
    | some row =>
      writeBenefits (·.id == row.id)
        (fun b => { b with
          status := (resume row anchor moment).status
          nextGrantAt := (resume row anchor moment).nextGrantAt }) (fun _ => ⟨rfl, rfl⟩)
      let promised ← promiseBenefits subscriptionId anchor moment entitlements rest
      pure (row.id :: promised)
    | none =>
      let entitlement ← require .keyError
        (entitlements.find? (·.entitlementId == benefit.entitlementId))
      let (row, _) ← require .attributeError
        (← insertOrRead Store.benefits (fun t s => { s with benefits := t })
          (fun b => b.subscriptionId == subscriptionId && b.benefitId == benefit.id)
          (snapshotOf subscriptionId benefit entitlement.id anchor moment))
      let promised ← promiseBenefits subscriptionId anchor moment entitlements rest
      pure (row.id :: promised)

/-- Takes the snapshot of what the entitlements promise, and ends what they do not. -/
def snapshotBenefits (subscription : Subscription) (entitlements : List UserEntitlement) :
    Db (List ℕ) := do
  let catalogBenefits ← query (·.catalog.benefits.filter
    (fun b => b.active && entitlements.any (·.entitlementId == b.entitlementId)))
  let moment ← now
  let promised ← promiseBenefits subscription.id (subscription.startedAt.getD moment) moment
    entitlements catalogBenefits
  writeBenefits
    (fun b => b.subscriptionId == subscription.id && !promised.contains b.id)
    (fun b => { b with status := .ended, nextGrantAt := none }) (fun _ => ⟨rfl, rfl⟩)
  pure promised

/-- A benefit granted once per person stays granted across the subscriptions. -/
def alreadyHeld (userId benefitId : ℕ) (userBenefitKey : UserBenefitKey) (s : Store) : Bool :=
  let ofBenefit := fun (grantId : Option ℕ) => s.grants.rows.any (fun g =>
    grantId == some g.id &&
      s.benefits.rows.any (fun b => b.id == g.subscriptionBenefitId && b.benefitId == benefitId))
  s.grants.rows.any (fun g => g.userBenefitKey == some userBenefitKey && g.status == .completed) ||
    s.transactions.rows.any (fun t => t.userId == userId && ofBenefit t.benefitGrantId) ||
    s.userProducts.rows.any (fun p => p.userId == userId && ofBenefit p.benefitGrantId)

def alreadyHeldByUser (benefit : SubscriptionBenefit) (userBenefitKey : UserBenefitKey) :
    Db Bool := do
  let subscription ← subscriptionOf benefit.subscriptionId
  query (alreadyHeld subscription.userId benefit.benefitId userBenefitKey)

/-- A trial opens the catalogue without handing out what outlives it. -/
def policyAllows (benefit : SubscriptionBenefit) : Db Bool := do
  let subscription ← subscriptionOf benefit.subscriptionId
  let plan ← planOf subscription
  match benefitPolicyOf subscription plan with
  | .all => pure true
  | .none => pure false
  | .accessOnly => pure (benefit.benefitType == .access)

def stillOwed (benefit : SubscriptionBenefit) : Db Bool := do
  if benefit.status ≠ .active then pure false
  else
    let subscription ← subscriptionOf benefit.subscriptionId
    pure subscription.isEligibleForBenefits

/-- Advances only the active cycle that produced the completed grant. -/
def advance (benefit : SubscriptionBenefit) (grant : BenefitGrant) : Db Unit := do
  if grant.status.advances then
    let moment ← now
    let following := benefit.cadence.interval.map (addInterval grant.scheduledAt)
    writeBenefits (fun b => b.id == benefit.id && b.cycle == grant.cycle && b.status == .active)
      (fun b => { b with lastGrantAt := some moment, nextGrantAt := following })
      (fun _ => ⟨rfl, rfl⟩)
    let _ ← refreshBenefit benefit.id
  else pure ()

/-- The row of this cycle, whoever wrote it. -/
def settled (grant : ℕ → BenefitGrant) : Db (BenefitGrant × Bool) := do
  let wanted := grant 0
  let written ← insertOrRead Store.grants (fun t s => { s with grants := t })
    (fun g => g.grantKey == wanted.grantKey ||
      (wanted.userBenefitKey.isSome && g.userBenefitKey == wanted.userBenefitKey)) grant
  remember (Memory.takeUp written)
  commit
  require .attributeError written

/-- A cycle nothing was handed out in is still a cycle. -/
def skip (benefit : SubscriptionBenefit) (grant : ℕ → BenefitGrant) (reason : String) :
    Db BenefitGrant := do
  let moment ← now
  let skipped := fun id => { grant id with
    status := .skipped, errorCode := some reason, completedAt := some moment }
  advance benefit (skipped 0)
  let (written, _) ← settled skipped
  pure written

/-- A cycle nobody owes anymore is closed where it stands. -/
def drop (grantId : ℕ) (reason : String) : Db Unit := do
  let moment ← now
  writeGrant grantId (fun g => { g with
    status := .skipped
    userBenefitKey := none
    errorCode := some reason
    errorMessage := none
    completedAt := some moment })

def deliverAccess (benefit : SubscriptionBenefit) (grant : BenefitGrant) : Db Unit := do
  let entitlement ← require .attributeError
    (← query (·.entitlements.get benefit.userEntitlementId))
  writeEntitlements (·.id == entitlement.id) (fun e => { e with status := .active, revokedAt := none })
    (fun _ => ⟨rfl, rfl⟩)
  writeGrant grant.id (fun g => { g with
    status := .completed
    grantedQuantity := 1
    result := .entitlement entitlement.entitlementId })

def deliverCredit (benefit : SubscriptionBenefit) (grant : BenefitGrant) : Db Unit := do
  let subscription ← subscriptionOf benefit.subscriptionId
  let plan ← planOf subscription
  let currencyId ← require .attributeError benefit.currencyId
  let transaction ← move .whole subscription.userId currencyId .credit benefit.quantity
    (some plan.name) (.grant grant.grantKey) (some grant.id)
  writeGrant grant.id (fun g => { g with
    status := .completed
    grantedQuantity := benefit.quantity
    result := .credited transaction.id transaction.balanceAfter })

/-- What a plan hands over is the account's from then on. -/
def deliverProduct (benefit : SubscriptionBenefit) (grant : BenefitGrant) : Db Unit := do
  let subscription ← subscriptionOf benefit.subscriptionId
  let productId ← require .integrity benefit.productId
  let (held, granted) ← commerceGrant subscription.userId productId (.product grant.grantKey)
    (some subscription.id) none (some grant.id)
  if granted then
    writeGrant grant.id (fun g => { g with
      status := .completed
      grantedQuantity := 1
      result := .product productId held.id })
  else
    writeGrant grant.id (fun g => { g with
      status := .skipped
      result := .product productId held.id
      errorCode := some "already_held_by_user" })

def handlers : BenefitType → SubscriptionBenefit → BenefitGrant → Db Unit
  | .access => deliverAccess
  | .credit => deliverCredit
  | .product => deliverProduct

/-- Delivers what the handlers do not refuse to, and closes or fails the grant. -/
def deliver (benefit : SubscriptionBenefit) (grant : BenefitGrant) : Db Unit :=
  attempt
    (do
      let _ ← holdSubscription benefit.subscriptionId
      let benefit ← refreshBenefit benefit.id
      if !(← stillOwed benefit) then drop grant.id "subscription_no_longer_eligible"
      else if grant.cycle ≠ benefit.cycle then drop grant.id "cycle_replaced"
      else if !(← policyAllows benefit) then drop grant.id "withheld_by_plan_policy"
      else
        handlers benefit.benefitType benefit grant
        let moment ← now
        writeGrant grant.id (fun g => { g with completedAt := some moment }))
    (fun error => do
      rollback
      let moment ← now
      writeGrant grant.id (fun g => { g with
        status := .failed
        errorCode := some error.name
        errorMessage := some error.text
        completedAt := some moment }))

/-- The grant of a cycle before anything is known of it. -/
def grantFor (benefit : SubscriptionBenefit) (key : CycleKey) (scheduledAt moment : ℕ)
    (userBenefitKey : Option UserBenefitKey) (id : ℕ) : BenefitGrant :=
  { id := id
    subscriptionBenefitId := benefit.id
    grantKey := (benefit.id, key)
    userBenefitKey := userBenefitKey
    cycle := benefit.cycle
    cycleKey := key
    scheduledAt := scheduledAt
    status := .processing
    requestedQuantity := benefit.quantity
    grantedQuantity := 0
    result := .nothing
    errorCode := none
    errorMessage := none
    attempts := 1
    startedAt := some moment
    completedAt := none }

/-- What reserves a benefit for a user, of a benefit granted once per user. -/
def userBenefitKeyOf (benefit : SubscriptionBenefit) : Db (Option UserBenefitKey) := do
  if benefit.cadence = .oncePerUser then
    let subscription ← subscriptionOf benefit.subscriptionId
    pure (some (subscription.userId, benefit.benefitId))
  else pure none

/-- Delivers a cycle nobody has a grant of, unless it is withheld. -/
def openCycle (benefit : SubscriptionBenefit) (key : CycleKey) (scheduledAt moment : ℕ)
    (userBenefitKey : Option UserBenefitKey) : Db BenefitGrant := do
  if !(← policyAllows benefit) then
    skip benefit (grantFor benefit key scheduledAt moment none) "withheld_by_plan_policy"
  else
    let (written, ours) ← settled (grantFor benefit key scheduledAt moment userBenefitKey)
    if !ours then pure written
    else
      deliver benefit written
      let grant ← grantOf written.id
      advance benefit grant
      commit
      remember (Memory.setGrant none)
      pure grant

def runCycle (benefit : SubscriptionBenefit) (key : CycleKey) (scheduledAt : ℕ) :
    Db BenefitGrant := do
  match ← query (·.grants.find (·.grantKey == (benefit.id, key))) with
  | some existing =>
    -- a cycle already closed never holds the schedule on itself
    advance benefit existing
    commit
    pure existing
  | none =>
    let moment ← now
    match ← userBenefitKeyOf benefit with
    | none => openCycle benefit key scheduledAt moment none
    | some userBenefitKey =>
      if ← alreadyHeldByUser benefit userBenefitKey then
        skip benefit (grantFor benefit key scheduledAt moment none) "already_held_by_user"
      else openCycle benefit key scheduledAt moment (some userBenefitKey)

/-- Grants what an activation owes, one benefit of the snapshot after the other. -/
def activateEach : List ℕ → Db (List ℕ)
  | [] => pure []
  | id :: rest => do
    let benefit ← benefitOf id
    if benefit.grantOnActivation && benefit.lastGrantAt.isNone then
      let moment ← now
      let slot ← require .typeError (firstDue benefit moment)
      let grant ← runCycle benefit (activationKey benefit slot) slot
      let grants ← activateEach rest
      pure (grant.id :: grants)
    else activateEach rest

def activate (id : ℕ) : Db (List ℕ) := do
  flush
  let subscription ← holdSubscription id
  if !subscription.isEligibleForBenefits then
    -- a paused subscription gives no access, and its benefits wait with no date
    expireEntitlements id
    writeBenefits (fun b => b.subscriptionId == id && b.status == .active)
      (fun b => { b with status := .paused, nextGrantAt := none }) (fun _ => ⟨rfl, rfl⟩)
    commit
    pure []
  else
    let entitlements ← reconcileEntitlements subscription
    let benefits ← snapshotBenefits subscription entitlements
    let kept ← query (fun s => benefits.filterMap s.benefits.get)
    remember (fun m => { m with benefits := kept })
    commit
    let grants ← activateEach benefits
    remember (fun m => { m with benefits := [] })
    let _ ← subscriptionOf id
    pure grants

/-- Opens a fresh cycle for somebody who is starting over instead of coming back. -/
def releaseCycle (subscriptionId : ℕ) : Db ℕ := do
  let released ← query (fun s => (s.benefits.select (·.subscriptionId == subscriptionId)).length)
  writeBenefits (·.subscriptionId == subscriptionId)
    (fun b => { b with cycle := b.cycle + 1, lastGrantAt := none }) (fun _ => ⟨rfl, rfl⟩)
  commit
  pure released

/-- The one way to force what coming back does not give. -/
def openNewCycle (subscriptionId operatorId : ℕ) : Db (List ℕ) := do
  let subscription ← subscriptionOf subscriptionId
  let released ← releaseCycle subscriptionId
  record subscription.tenantId subscription.userId .info
    (.newCycleOpened subscriptionId operatorId released)
  activate subscriptionId

/-- The condition a benefit the due pass lists meets. -/
def due (moment : ℕ) (s : Store) (b : SubscriptionBenefit) : Bool :=
  b.status == .active && b.cadence.interval.isSome && b.nextGrantAt.any (· ≤ moment) &&
    (s.subscriptions.get b.subscriptionId).any Subscription.isEligibleForBenefits &&
    !s.grants.rows.any (fun g => g.subscriptionBenefitId == b.id &&
      (g.status == .failed || g.status == .processing))

/-- The ids a due pass works through, the longest due first. -/
def dueIds (moment : ℕ) (s : Store) : List ℕ :=
  (((s.benefits.select (due moment s)).insertionSort
    (fun a b => a.nextGrantAt.getD 0 ≤ b.nextGrantAt.getD 0)).take dueBatch).map (·.id)

/-- Nothing keeps the rows a pass loaded for what it worked before. -/
def letGo : Db Unit := remember (fun m => { m with subscriptions := [] })

def processEach (moment : ℕ) : List ℕ → Db (List ℕ)
  | [] => pure []
  | id :: rest => do
    remember (Memory.setDue (some (moment, rest)))
    let benefit ← benefitOf id
    match resolveDueSlot benefit moment with
    | .error error => raise error
    | .ok (none, moved) =>
      writeBenefits (·.id == id) (fun b => { b with nextGrantAt := moved.nextGrantAt })
        (fun _ => ⟨rfl, rfl⟩)
      commit
      processEach moment rest
    | .ok (some scheduledAt, _) =>
      let grant ← runCycle benefit (cycleKey scheduledAt) scheduledAt
      letGo
      let grants ← processEach moment rest
      pure (grant.id :: grants)

def processDue : Db (List ℕ) := do
  let moment ← now
  processEach moment (← query (dueIds moment))

/-- Whether a row is past its period and not closed yet. -/
def lapsed (moment : ℕ) (s : Subscription) : Bool :=
  s.status.eligible && s.accessUntil.any (· < moment)

def expireEach (moment : ℕ) : List ℕ → Db (List ℕ)
  | [] => pure []
  | id :: rest => do
    -- a renewal lands between the read and this write
    if (← query (·.subscriptions.get id)).any (lapsed moment) then
      execute (fun s => { s with
        subscriptions := s.subscriptions.modify (·.id == id)
          (fun r => { r with status := .expired, expiredAt := some moment, benefitStatus := .ended })
          (fun _ => ⟨rfl, rfl⟩) })
      let _ ← refresh id
      endBenefits id
      let closed ← expireEach moment rest
      pure (id :: closed)
    else expireEach moment rest

def expireSubscriptions : Db (List ℕ) := do
  let moment ← now
  let expired ← query (fun s => ((s.subscriptions.select (lapsed moment)).take expiryBatch).map
    (·.id))
  let closed ← expireEach moment expired
  commit
  pure closed

/-- Processing for so long that the node running it is gone. -/
def abandoned (moment : ℕ) (g : BenefitGrant) : Bool :=
  g.status == .processing && g.startedAt.any (· + abandonedAfter < moment)

/-- What a retry pass is allowed to pick up. -/
def takeable (moment : ℕ) (g : BenefitGrant) : Bool :=
  (g.status == .failed || abandoned moment g) && g.attempts < maxAttempts

/-- A grant whose last attempt died with the node running it. -/
def exhausted (moment : ℕ) (g : BenefitGrant) : Bool :=
  abandoned moment g && maxAttempts ≤ g.attempts

/-- Takes a grant for this pass, and answers whether it was the one that got it. -/
def claim (grantId : ℕ) : Db Bool := do
  let moment ← now
  if (← query (·.grants.get grantId)).any (takeable moment) then
    writeGrant grantId (fun g => { g with
      status := .processing
      attempts := g.attempts + 1
      errorCode := none
      errorMessage := none
      startedAt := some moment })
    remember (Memory.setGrant (some (grantId, false)))
    commit
    pure true
  else
    commit
    pure false

/-- The attempts ran out, so the cycle closes instead of being held. -/
def giveUp (benefit : SubscriptionBenefit) (grantId : ℕ) : Db Unit := do
  let subscription ← subscriptionOf benefit.subscriptionId
  let grant ← grantOf grantId
  let moment ← now
  writeGrant grantId (fun g => { g with
    status := .skipped
    userBenefitKey := none
    errorCode := some "given_up_after_max_attempts"
    completedAt := some moment })
  record subscription.tenantId subscription.userId .error
    (.givenUp subscription.id grantId grant.grantKey grant.attempts grant.errorCode
      grant.errorMessage)

/-- Closes a grant whose last attempt was cut short. -/
def closeExhausted (benefit : SubscriptionBenefit) (grantId : ℕ) : Db Bool := do
  let moment ← now
  if (← query (·.grants.get grantId)).any (exhausted moment) then
    writeGrant grantId (fun g => { g with
      status := .failed
      errorCode := some "abandoned"
      errorMessage := some "the last attempt never finished" })
    giveUp benefit grantId
    let grant ← grantOf grantId
    advance benefit grant
    commit
    pure true
  else
    commit
    pure false

def retryGrant (grantId : ℕ) : Db Bool := do
  letGo
  let grant ← grantOf grantId
  let benefit ← require .attributeError (← query (·.benefits.get grant.subscriptionBenefitId))
  -- what the subscription owed when the cycle ran it may not owe now
  if !(← stillOwed benefit) then
    drop grantId "subscription_no_longer_eligible"
    pure true
  else if maxAttempts ≤ grant.attempts then closeExhausted benefit grantId
  else if !(← claim grantId) then pure false
  else
    deliver benefit grant
    let worked ← grantOf grantId
    if worked.status = .failed ∧ maxAttempts ≤ worked.attempts then
      giveUp benefit grantId
    let closed ← grantOf grantId
    advance benefit closed
    remember (Memory.setGrant none)
    pure true

def retryEach : List ℕ → Db (List ℕ)
  | [] => pure []
  | id :: rest => do
    remember (Memory.setRetries (id :: rest))
    let worked ← retryGrant id
    let others ← retryEach rest
    pure (if worked then id :: others else others)

def retryFailedGrants : Db (List ℕ) := do
  let moment ← now
  let ids ← query (fun s => ((s.grants.select (fun g => takeable moment g || exhausted moment g)).map
    (·.id)).insertionSort (· ≤ ·) |>.take retryBatch)
  remember (Memory.setRetries ids)
  publish
  let worked ← retryEach ids
  commit
  pure worked

end FastKit
