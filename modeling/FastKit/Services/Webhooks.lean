import FastKit.Services.Commerce
import FastKit.Services.Gateways

/-! # The webhook service

A call of a gateway is written down, claimed by whoever reads it, and run. An event that
failed, or whose node died, is taken again by the retry pass until its attempts run out.
-/

namespace FastKit
open Transaction Transaction.Program

namespace Webhook

def maxAttempts : ℕ := 5

def retryBatch : ℕ := 100

/-- Where nothing is done about an event anymore. -/
def closed (status : WebhookEventStatus) : Bool := status == .completed || status == .ignored

/-- Nobody wrote the event for so long that the node that had it is gone. -/
def abandoned (moment : ℕ) (e : WebhookEvent) : Bool := e.updatedAt + abandonedAfter < moment

/-- Writes an event where it stands, which stamps it. -/
def writeEvent (p : WebhookEvent → Bool) (f : WebhookEvent → WebhookEvent) (h : Still f) :
    Db Unit := do
  let moment ← now
  execute (fun s => { s with
    events := s.events.modify p (fun e => { f e with updatedAt := moment }) h })

/-- What a reader may take: whatever waits, and what a node that died was reading. -/
def takeable (moment : ℕ) (e : WebhookEvent) : Bool :=
  e.status == .received || e.status == .failed || (e.status == .processing && abandoned moment e)

/-- Takes an event for this reader, and answers whether it was the one that got it. -/
def claim (id : ℕ) : Db Bool := do
  let moment ← now
  if (← query (·.events.get id)).any (takeable moment) then
    writeEvent (·.id == id) (fun e => { e with status := .processing, attempts := e.attempts + 1 })
      (fun _ => ⟨rfl, rfl⟩)
    remember (Memory.setEvent (some (id, moment)))
    commit
    pure true
  else
    commit
    pure false

def accountNamed (integration : Integration) (token : ℕ) : Db (Option User) :=
  query (·.catalog.users.find?
    (fun u => u.token == token && u.tenantId == integration.tenantId))

def userOf (integration : Integration) (event : ProviderEvent) : Db (Option User) :=
  match event.accountToken with
  | some token => accountNamed integration token
  | none => pure none

/-- A session names the reference minted here, and a charge names only the payment stored when
that session settled. -/
def purchaseOf (integration : Integration) (event : ProviderEvent) : Db (Option Purchase) := do
  let found ← query (fun s => match event.reference, event.paymentId with
    | some reference, _ => s.purchases.find (·.reference == reference)
    | none, some payment => s.purchases.find (·.externalId == some payment)
    | none, none => none)
  -- a purchase opened through another gateway is not this notice to move
  pure (found.filter (·.integrationId == some integration.id))

def settlePayment (integration : Integration) (event : ProviderEvent) : Db (Option Purchase) := do
  match event.purchaseStatus with
  | none => pure none
  | some status =>
    match ← purchaseOf integration event with
    | none => pure none
    | some purchase =>
      let settled ← settlePurchase purchase.id status event.paymentId settleRounds
      pure (some settled)

/-- Asks about the accounts named beside the one a notice is about. -/
def reconcileNamed (G : Gateway) (integration : Integration) : List ℕ → Db Unit
  | [] => pure ()
  | token :: rest => do
    match ← accountNamed integration token with
    | some user =>
      let _ ← reconcileAccount G integration user
      reconcileNamed G integration rest
    | none => reconcileNamed G integration rest

def subscriptionNamed (integration : Integration) (user : User) (event : ProviderEvent)
    (s : Store) : Option ℕ :=
  event.productReference.bind (fun reference =>
    ((listedOurs integration.id user.id s).find? (·.1 == reference)).map Prod.snd)

/-- What a notice makes of the account it is about, which either way is asked or told. -/
def settleUser (G : Gateway) (integration : Integration) (event : ProviderEvent) (user : User) :
    Db Unit := do
  if !G.eventStated integration.provider then
    let _ ← reconcileAccount G integration user
  else
    match event.state with
    | some held =>
      let _ ← FastKit.apply integration user held false event.occurredAt
      commit
    | none => pure ()

/-- Applies what an event is about, and says so on its row. -/
def apply (G : Gateway) (integration : Integration) (event : ProviderEvent) (id : ℕ) :
    Db Unit := do
  let settled ← settlePayment integration event
  let user ← userOf integration event
  reconcileNamed G integration event.alsoAbout
  match user, settled with
  | none, none =>
    remember (Memory.setEvent none)
    writeEvent (·.id == id)
      (fun e => { e with
        status := .ignored
        errorCode := some "unresolved"
        errorMessage := some "no account of this tenant answers for the token" })
      (fun _ => ⟨rfl, rfl⟩)
  | none, some purchase =>
    let moment ← now
    remember (Memory.setEvent none)
    writeEvent (·.id == id)
      (fun e => { e with
        userId := some purchase.userId, status := .completed, processedAt := some moment })
      (fun _ => ⟨rfl, rfl⟩)
  | some user, _ =>
    settleUser G integration event user
    let subscriptionId ← query (subscriptionNamed integration user event)
    let moment ← now
    remember (Memory.setEvent none)
    writeEvent (·.id == id)
      (fun e => { e with
        subscriptionId := subscriptionId
        userId := some user.id
        status := .completed
        processedAt := some moment })
      (fun _ => ⟨rfl, rfl⟩)

def eventOf (id : ℕ) : Db WebhookEvent := do
  require .attributeError (← query (·.events.get id))

/-- Writes the failure of an event down. -/
def fail (id : ℕ) (integration : Integration) (error : Fault) : Db Unit := do
  let event ← eventOf id
  writeEvent (·.id == id)
    (fun e => { e with
      status := .failed, errorCode := some error.name, errorMessage := some error.text })
    (fun _ => ⟨rfl, rfl⟩)
  record integration.tenantId (event.userId.getD 0) .error
    (.webhookFailed id event.externalEventId integration.provider error.text)
  commit

/-- Runs a claimed event, and writes down what stopped it. -/
def run (G : Gateway) (integration : Integration) (event : ProviderEvent) (id : ℕ) : Db Unit :=
  attempt
    (do
      apply G integration event id
      commit)
    (fun error => do
      rollback
      remember (Memory.setEvent none)
      fail id integration error
      raise error)

/-- Writes a call down, unless its event is there already. -/
def store (event : ℕ → WebhookEvent) : Db WebhookEvent := do
  let wanted := event 0
  let written ← insertOrRead Store.events (fun t s => { s with events := t })
    (fun e => e.integrationId == wanted.integrationId &&
      e.externalEventId == wanted.externalEventId) event
  commit
  let (settled, _) ← require .attributeError written
  pure settled

/-- The row of a call before anything is known of it. -/
def recorded (integration : Integration) (externalEventId moment : ℕ) (payload : Payload)
    (occurredAt : Option ℕ) (id : ℕ) : WebhookEvent :=
  { id := id
    integrationId := integration.id
    userId := none
    subscriptionId := none
    externalEventId := externalEventId
    payload := payload
    occurredAt := occurredAt
    processedAt := none
    status := .received
    errorCode := none
    errorMessage := none
    attempts := 0
    createdAt := moment
    updatedAt := moment }

/-- A call nobody knows how to read is still written down. -/
def unread (integration : Integration) (call : InboundCall) : Db WebhookEvent := do
  let moment ← now
  store (fun id => { recorded integration call.digest moment call.data none id with
    status := .ignored, errorCode := some "unread" })

/-- The same event id is the same row. -/
def recordOf (integration : Integration) (event : ProviderEvent) (call : InboundCall) :
    Db WebhookEvent := do
  let externalEventId := event.externalEventId.getD call.digest
  match ← query (·.events.find
      (fun e => e.integrationId == integration.id && e.externalEventId == externalEventId)) with
  | some existing => pure existing
  | none =>
    let moment ← now
    store (recorded integration externalEventId moment call.data event.occurredAt)

/-- The key of the address a gateway calls is its integration's own. -/
def findIntegration (key : ℕ) : Db (Option Integration) :=
  query (·.catalog.integrations.find? (fun i => i.id == key && i.active))

def ingest (G : Gateway) (integration : Integration) (call : InboundCall) : Db Unit := do
  match call.refused with
  | some error => raise error
  | none =>
    match call.data integration.provider with
    | .error error => raise error
    | .ok none =>
      let _ ← unread integration call
    | .ok (some event) =>
      let row ← recordOf integration event call
      if closed row.status then pure ()
      else if ← claim row.id then run G integration event row.id
      else pure ()

/-- What answers a call of a gateway, where its address is one's. -/
def receive (G : Gateway) (key : ℕ) (call : InboundCall) : Db Unit := do
  match ← findIntegration key with
  | some integration => ingest G integration call
  | none => pure ()

/-- Closes the events whose last attempt died with the node reading them. -/
def closeExhausted : Db Unit := do
  let moment ← now
  writeEvent
    (fun e => e.status == .processing && abandoned moment e && decide (maxAttempts ≤ e.attempts))
    (fun e => { e with
      status := .failed
      errorCode := some "abandoned"
      errorMessage := some "the last attempt never finished" })
    (fun _ => ⟨rfl, rfl⟩)
  commit

/-- What the retry pass picks up. -/
def stuck (moment : ℕ) (e : WebhookEvent) : Bool :=
  (e.status == .failed ||
      ((e.status == .received || e.status == .processing) && abandoned moment e)) &&
    decide (e.attempts < maxAttempts)

def stuckIds (moment : ℕ) (s : Store) : List ℕ :=
  (((s.events.select (stuck moment)).insertionSort (fun a b => a.createdAt ≤ b.createdAt)).take
    retryBatch).map (·.id)

def retryEvent (G : Gateway) (id : ℕ) : Db Bool := do
  if !(← claim id) then pure false
  else
    let row ← eventOf id
    let integration ← require .attributeError
      (← query (·.catalog.integrations.find? (·.id == row.integrationId)))
    match row.payload integration.provider with
    | .error error => raise error
    | .ok none =>
      remember (Memory.setEvent none)
      writeEvent (·.id == id) (fun e => { e with status := .ignored }) (fun _ => ⟨rfl, rfl⟩)
      commit
      pure false
    | .ok (some event) =>
      attempt
        (do
          run G integration event id
          pure true)
        (fun _ => do
          -- the run rolled back, and wrote its failure down
          remember (fun m => m.expired.setEvent none)
          pure false)

def retryEach (G : Gateway) : List ℕ → Db (List ℕ)
  | [] => pure []
  | id :: rest => do
    let done ← retryEvent G id
    let others ← retryEach G rest
    pure (if done then id :: others else others)

def retryFailed (G : Gateway) : Db (List ℕ) := do
  let moment ← now
  let ids ← query (stuckIds moment)
  retryEach G ids

end Webhook
end FastKit
