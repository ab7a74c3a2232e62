import FastKit.Models.Rows
import FastKit.Transaction.Program
import Mathlib.Data.List.Sort

/-! # The store and the database session

A database session keeps the subscriptions it loaded in memory. Writing an attribute
changes the copy in memory only; a flush writes what changed since the copy was loaded,
a refresh discards it, and a rollback makes the session load everything again. Every
other row is written where it is.
-/

namespace FastKit
open Transaction Transaction.Program

/-- What operators set up, which no service here writes. -/
structure Catalog where
  plans : List Plan
  planEntitlements : List PlanEntitlement
  benefits : List Benefit
  externalProducts : List ExternalProduct
  products : List Product
  users : List User
  currencies : List Currency
  integrations : List Integration

structure Store where
  clock : ℕ
  catalog : Catalog
  subscriptions : Table Subscription
  entitlements : Table UserEntitlement
  benefits : Table SubscriptionBenefit
  grants : Table BenefitGrant
  balances : Table UserBalance
  transactions : Table CreditTransaction
  userProducts : Table UserProduct
  purchases : Table Purchase
  events : Table WebhookEvent
  /-- When the gateway last answered for a user, the latest first. -/
  reconciled : List (ℕ × ℕ)
  logs : List SystemLog
  /-- The balance rows a movement holds, by user and currency. -/
  locks : List (ℕ × ℕ)

/-- A subscription as it was loaded and as it is in memory now. -/
structure Loaded where
  loaded : Subscription
  now : Subscription

/-- What a session has in hand: the benefits a due pass listed and has not loaded yet, the
grants a retry pass listed and has not come to, the grant a session is delivering with
whether it opened it, and the event a session is running with when it took it. -/
structure Agenda where
  due : Option (ℕ × List ℕ)
  retries : Option (List ℕ)
  grant : Option (ℕ × Bool)
  event : Option (ℕ × ℕ)

/-- What a session remembers: the subscriptions it loaded, the copies an activation keeps
of its benefits, the plans and the purchases it loaded, and what it has in hand. -/
structure Memory where
  subscriptions : List Loaded
  benefits : List SubscriptionBenefit
  plans : List Plan
  purchases : List Purchase
  agenda : Agenda

def Memory.empty : Memory := ⟨[], [], [], [], ⟨none, none, none, none⟩⟩

abbrev Db := Program Memory Store Fault

namespace Memory

/-- The moment of a due pass and the benefits it still lists. -/
def listed (m : Memory) : Option (ℕ × List ℕ) := m.agenda.due

def find (m : Memory) (id : ℕ) : Option Subscription :=
  (m.subscriptions.find? (·.loaded.id == id)).map Loaded.now

/-- Replaces whatever is remembered of a row by the row. -/
def load (row : Subscription) (m : Memory) : Memory :=
  { m with subscriptions := ⟨row, row⟩ :: m.subscriptions.filter (·.loaded.id != row.id) }

def assign (id : ℕ) (f : Subscription → Subscription) (m : Memory) : Memory :=
  { m with subscriptions :=
      m.subscriptions.map (fun l => if l.loaded.id == id then { l with now := f l.now } else l) }

/-- Follows a statement that wrote the row itself. -/
def sync (id : ℕ) (f : Subscription → Subscription) (m : Memory) : Memory :=
  { m with subscriptions :=
      m.subscriptions.map (fun l => if l.loaded.id == id then ⟨f l.loaded, f l.now⟩ else l) }

def flushed (m : Memory) : Memory :=
  { m with subscriptions := m.subscriptions.map (fun l => ⟨l.now, l.now⟩) }

def expired (m : Memory) : Memory :=
  { m with subscriptions := [], benefits := [], plans := [], purchases := [] }

def setDue (due : Option (ℕ × List ℕ)) (m : Memory) : Memory :=
  { m with agenda := { m.agenda with due := due } }

def setGrant (grant : Option (ℕ × Bool)) (m : Memory) : Memory :=
  { m with agenda := { m.agenda with grant := grant } }

/-- Takes up a grant the session itself opened for delivery. -/
def takeUp : Option (BenefitGrant × Bool) → Memory → Memory
  | some (grant, true), m =>
    if grant.status = .processing then m.setGrant (some (grant.id, true)) else m
  | _, m => m

def setRetries (retries : List ℕ) (m : Memory) : Memory :=
  { m with agenda := { m.agenda with retries := some retries } }

def setEvent (event : Option (ℕ × ℕ)) (m : Memory) : Memory :=
  { m with agenda := { m.agenda with event := event } }

def keepPlan (row : Plan) (m : Memory) : Memory := { m with plans := row :: m.plans }

def keepPurchase (row : Purchase) (m : Memory) : Memory :=
  { m with purchases := row :: m.purchases.filter (·.id != row.id) }

/-- Follows a statement that wrote the purchase itself. -/
def syncPurchase (id : ℕ) (f : Purchase → Purchase) (m : Memory) : Memory :=
  { m with purchases := m.purchases.map (fun p => if p.id == id then f p else p) }

def keepBenefit (row : SubscriptionBenefit) (m : Memory) : Memory :=
  { m with benefits := m.benefits.map (fun b => if b.id == row.id then row else b) }

end Memory

/-- The value of an attribute after a flush: the one in memory where it changed there. -/
def changed {α : Type} [DecidableEq α] (loaded now row : α) : α := if now = loaded then row else now

/-- The row after a flush of its copy, over the attributes the services write in memory. -/
def Loaded.write (l : Loaded) (row : Subscription) : Subscription :=
  { row with
    externalId := changed l.loaded.externalId l.now.externalId row.externalId
    status := changed l.loaded.status l.now.status row.status
    benefitStatus := changed l.loaded.benefitStatus l.now.benefitStatus row.benefitStatus
    environment := changed l.loaded.environment l.now.environment row.environment
    startedAt := changed l.loaded.startedAt l.now.startedAt row.startedAt
    currentPeriodStartedAt := changed l.loaded.currentPeriodStartedAt
      l.now.currentPeriodStartedAt row.currentPeriodStartedAt
    currentPeriodEndsAt := changed l.loaded.currentPeriodEndsAt l.now.currentPeriodEndsAt
      row.currentPeriodEndsAt
    accessUntil := changed l.loaded.accessUntil l.now.accessUntil row.accessUntil
    trialEndsAt := changed l.loaded.trialEndsAt l.now.trialEndsAt row.trialEndsAt
    graceUntil := changed l.loaded.graceUntil l.now.graceUntil row.graceUntil
    cancelAtPeriodEnd := changed l.loaded.cancelAtPeriodEnd l.now.cancelAtPeriodEnd
      row.cancelAtPeriodEnd
    canceledAt := changed l.loaded.canceledAt l.now.canceledAt row.canceledAt
    expiredAt := changed l.loaded.expiredAt l.now.expiredAt row.expiredAt
    provider := changed l.loaded.provider l.now.provider row.provider }

/-- The subscriptions after the copies were written one after the other, where no key they
move is taken. -/
def writeLoaded : List Loaded → Table Subscription → Option (Table Subscription)
  | [], t => some t
  | l :: rest, t =>
    if l.now = l.loaded then writeLoaded rest t
    else (t.alter (·.id == l.loaded.id) l.write).bind (writeLoaded rest)

def now : Db ℕ := query (·.clock)

def flush : Db Unit := do
  let held ← remembered (·.subscriptions)
  match ← query (fun s => writeLoaded (held.insertionSort (·.loaded.id ≤ ·.loaded.id))
      s.subscriptions) with
  | some t =>
    execute (fun s => { s with subscriptions := t })
    remember Memory.flushed
  | none => raise .integrity

def commit : Db Unit := do
  flush
  publish

def rollback : Db Unit := do
  revert
  remember Memory.expired

/-- A commit whose refusal is a duplicate the caller can act on. -/
def persist : Db Unit := do
  attempt flush (fun _ => do
    rollback
    raise (.conflict "error.duplicated-record"))
  publish

def subscriptionOf (id : ℕ) : Db Subscription := do
  match ← remembered (·.find id) with
  | some row => pure row
  | none =>
    let row ← require .attributeError (← query (·.subscriptions.get id))
    remember (Memory.load row)
    pure row

/-- Reads the row again and discards what was not written of it. -/
def refresh (id : ℕ) : Db Subscription := do
  let row ← require .invalidRequest (← query (·.subscriptions.get id))
  remember (Memory.load row)
  pure row

def assign (id : ℕ) (f : Subscription → Subscription) : Db Unit := do
  let _ ← subscriptionOf id
  remember (Memory.assign id f)

/-- The row `read` finds, or the one inserted where it finds none, with whether this call
inserted it. An insert that is refused is undone alone and the row is read again. -/
def insertOrRead {α κ : Type} [Keyed α κ] [DecidableEq κ] (table : Store → Table α)
    (put : Table α → Store → Store) (read : α → Bool) (instance' : ℕ → α) :
    Db (Option (α × Bool)) := do
  match ← query (fun s => (table s).find read) with
  | some row => pure (some (row, false))
  | none =>
    flush
    match ← query (fun s => (table s).insert instance') with
    | some (row, t) =>
      execute (put t)
      pure (some (row, true))
    | none => query (fun s => ((table s).find read).map (·, false))

def record (tenantId : Option ℕ) (userId : ℕ) (level : LogLevel) (message : LogMessage) :
    Db Unit := do
  execute (fun s => { s with logs := s.logs ++ [⟨tenantId, userId, level, message⟩] })
  persist

end FastKit
