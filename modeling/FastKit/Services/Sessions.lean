import FastKit.Services.Webhooks
import FastKit.Transaction.Pool

/-! # Sessions

Every call a node serves, as a session of a pool over one store. A node that dies is a
session that is given no further turn.
-/

namespace FastKit
open Transaction Transaction.Program

inductive Call where
  | activate (subscription : ℕ)
  | processDue
  | retryFailedGrants
  | expireSubscriptions
  | openNewCycle (subscription operator : ℕ)
  | apply (integration : Integration) (user : User) (held : List ProviderPurchase)
      (complete : Bool) (statedAt : Option ℕ)
  /-- What one session says of a purchase, one word after the other. -/
  | settlePurchase (purchase : ℕ) (notices : List (PurchaseStatus × Option ℕ))
  | forProduct (user product integration reference : ℕ) (opened : Bool)
  | receive (gateways : Gateway) (key : ℕ) (call : InboundCall)
  | closeExhausted
  | retryFailed (gateways : Gateway)
  | reconcileStale (gateways : Gateway)
  /-- Every pass in its order, by one session. -/
  | subscriptionCycle (gateways : Gateway)
  /-- An operator edits the catalogue. -/
  | edit (catalog : Catalog)
  /-- A manual entry of the ledger. -/
  | createTransaction (user currency : ℕ) (type : CreditTransactionType) (amount : ℤ) (token : ℕ)
  /-- Time passing. -/
  | tick (by' : ℕ)

def settleEachNotice (id : ℕ) : List (PurchaseStatus × Option ℕ) → Db Unit
  | [] => pure ()
  | (status, externalId) :: rest => do
    let _ ← settlePurchase id status externalId settleRounds
    settleEachNotice id rest

def runSubscriptionCycle (G : Gateway) : Db Unit := do
  Webhook.closeExhausted
  let _ ← reconcileStale G
  let _ ← expireSubscriptions
  let _ ← processDue
  let _ ← retryFailedGrants
  let _ ← Webhook.retryFailed G

/-- What the session of a call runs. -/
def Call.serve : Call → Db Unit
  | .activate id => do let _ ← FastKit.activate id
  | .processDue => do let _ ← FastKit.processDue
  | .retryFailedGrants => do let _ ← FastKit.retryFailedGrants
  | .expireSubscriptions => do let _ ← FastKit.expireSubscriptions
  | .openNewCycle id operator => do let _ ← FastKit.openNewCycle id operator
  | .apply integration user held complete statedAt => do
    let _ ← FastKit.apply integration user held complete statedAt
  | .settlePurchase id notices => settleEachNotice id notices
  | .forProduct user product integration reference opened =>
    FastKit.forProduct user product integration reference opened
  | .receive G key call => Webhook.receive G key call
  | .closeExhausted => Webhook.closeExhausted
  | .retryFailed G => do let _ ← Webhook.retryFailed G
  | .reconcileStale G => do let _ ← FastKit.reconcileStale G
  | .subscriptionCycle G => runSubscriptionCycle G
  | .edit catalog => do
    execute (fun s => { s with catalog := catalog })
    publish
  | .createTransaction user currency type amount token => do
    let _ ← FastKit.createTransaction .whole user currency type amount none token
  | .tick by' => do
    execute (fun s => { s with clock := s.clock + by' })
    publish

abbrev Sessions := Pool Memory Store Fault (Unit × Memory)

/-- A session for each call, none of which ran yet. -/
def sessions (calls : List Call) (s : Store) : Sessions :=
  ⟨s, calls.map (fun c => session c.serve Memory.empty s)⟩

/-- The store after a call that nobody else runs beside, where it ends without an error. -/
def Call.alone (c : Call) (s : Store) : Except Fault Store :=
  match c.serve.run Memory.empty s s with
  | (.ok _, base, _) => .ok base
  | (.error e, _, _) => .error e

/-- The store after calls that follow one another. -/
def after : List Call → Store → Except Fault Store
  | [], s => .ok s
  | c :: rest, s => (c.alone s).bind (after rest)

namespace Shop

/-- A catalogue of two plans sold by one integration, which promise the same benefits. -/
def catalog (benefits : List Benefit) : Catalog where
  plans := [⟨1, "basic", .sameCycle, .accessOnly, .accessOnly⟩,
    ⟨2, "premium", .newCycle, .accessOnly, .accessOnly⟩]
  planEntitlements := [⟨1, 10⟩, ⟨2, 10⟩]
  benefits := benefits
  externalProducts := [⟨50, 5, 1, 500, true⟩, ⟨51, 5, 2, 510, true⟩]
  products := []
  users := [⟨1, none, 1⟩, ⟨2, none, 2⟩]
  currencies := [⟨7, none⟩]
  integrations := [⟨5, none, "web", true⟩]

/-- The first of January 2024. -/
def opening : ℕ := Calendar.monthStart (12 * 2023) * Calendar.day

/-- A store nobody bought anything in. -/
def new (catalog : Catalog) : Store where
  clock := opening
  catalog := catalog
  subscriptions := .empty
  entitlements := .empty
  benefits := .empty
  grants := .empty
  balances := .empty
  transactions := .empty
  userProducts := .empty
  purchases := .empty
  events := .empty
  reconciled := []
  logs := []
  locks := []

/-- Credits every month, the first ones at the activation. -/
def credits (id : ℕ) : Benefit :=
  ⟨id, 10, none, some 7, .credit, 30, .recurring ⟨.month, 1, Nat.one_pos⟩, true, .catchUp, true⟩

/-- Credits every month, paid by the due pass alone. -/
def later : Benefit := { credits 102 with grantOnActivation := false }

def welcome : Benefit := ⟨101, 10, none, some 7, .credit, 50, .oncePerUser, true, .catchUp, true⟩

def integration : Integration := ⟨5, none, "web", true⟩

def buyer : User := ⟨1, none, 1⟩

def friend : User := ⟨2, none, 2⟩

/-- A live purchase of the basic plan that never renews. -/
def purchase : ProviderPurchase where
  externalId := some 900
  productReference := 500
  store := none
  ownership := none
  periodType := none
  trial := false
  purchasedAt := none
  firstPurchasedAt := none
  periodEndsAt := none
  graceEndsAt := none
  autoResumeAt := none
  unsubscribedAt := none
  refundedAt := none
  environment := .production
  recurring := true
  status := some .active

def paused : ProviderPurchase := { purchase with status := some .suspended }

def upgrade : ProviderPurchase :=
  { purchase with externalId := some 901, productReference := 510 }

/-- The basic plan, renewed until two months after the opening. -/
def renewal : ProviderPurchase :=
  { purchase with periodEndsAt := some (opening + 60 * Calendar.day) }

end Shop
end FastKit
