import FastKit.Services.Reconciliation
import Mathlib.Data.Prod.Lex

/-! # Asking the gateways

A gateway that is queried answers what an account holds, says nothing, or refuses the key it
is asked with. The sweep asks about the accounts whose period ran out in silence, whoever was
asked longest ago first.
-/

namespace FastKit
open Transaction Transaction.Program

/-- What comes of a question about an account. -/
inductive Answer where
  | held (purchases : List ProviderPurchase)
  | rateLimited (seconds : ℕ)
  | refused
  | silent (text : String)

structure Gateway where
  /-- Asked about a user of an integration at a moment: how long it takes, and its answer. -/
  answer : ℕ → ℕ → ℕ → ℕ × Answer
  hasSecret : ℕ → Bool
  queryable : String → Bool
  eventStated : String → Bool

/-- Time goes by while the session waits for something that is not the store. -/
def elapse (duration : ℕ) : Db Unit := do
  execute (fun s => { s with clock := s.clock + duration })
  publish

/-- A question about an account, and what its answer makes of its subscriptions. -/
def against (G : Gateway) (integration : Integration) (user : User) : Db ℕ := do
  let queriedAt ← now
  elapse (G.answer integration.id user.id queriedAt).1
  match (G.answer integration.id user.id queriedAt).2 with
  | .rateLimited seconds =>
    elapse (seconds * Calendar.second)
    raise (.silent "asked to wait before answering")
  | .refused =>
    record integration.tenantId user.id .error (.keyRefused integration.id)
    commit
    raise (.unreadable "refused the api key")
  | .silent text => raise (.silent text)
  | .held held =>
    let moment ← now
    execute (fun s => { s with reconciled := (user.id, moment) :: s.reconciled })
    apply integration user held true (some queriedAt)

def reconcileAccount (G : Gateway) (integration : Integration) (user : User) : Db ℕ :=
  if !G.hasSecret integration.id then raise (.unreadable "no api key")
  else against G integration user

/-- The window of the sweep over the pace of its calls. -/
def sweepLimit : ℕ := 45

def sweepWindow : ℕ := 3 * 60 * Calendar.second

def pace : ℕ := 4 * Calendar.second

def recentlyClosed : ℕ := 2 * Calendar.day

/-- A period that ran out, or a row the clock just closed. -/
def stale (moment : ℕ) (r : Subscription) : Bool :=
  (r.status.eligible && r.accessUntil.any (· ≤ moment)) ||
    (r.status == .expired && r.expiredAt.any (moment < · + recentlyClosed))

/-- Whether a gateway that answers is behind a row. -/
def answerable (G : Gateway) (s : Store) (r : Subscription) : Bool :=
  s.catalog.integrations.any
    (fun i => r.integrationId == some i.id && i.active && G.queryable i.provider)

def staleRows (G : Gateway) (moment : ℕ) (s : Store) : List Subscription :=
  s.subscriptions.select (fun r => stale moment r && answerable G s r)

def Subscription.account (r : Subscription) : ℕ × ℕ := (r.integrationId.getD 0, r.userId)

/-- When the account was last answered for: never, or at a moment. -/
def askedAt (s : Store) (userId : ℕ) : Option ℕ := s.reconciled.lookup userId

/-- What the sweep orders an account by: never asked first, then the longest ago, then the
period that ran out first. -/
def askedKey (G : Gateway) (moment : ℕ) (s : Store) (account : ℕ × ℕ) : ℕ ×ₗ ℕ ×ₗ ℕ :=
  toLex ((askedAt s account.2).elim 0 (fun _ => 1), toLex ((askedAt s account.2).getD 0,
    (((staleRows G moment s).filter (·.account = account)).filterMap
      Subscription.accessUntil).min?.getD 0))

def staleAccounts (G : Gateway) (moment : ℕ) (s : Store) : List (ℕ × ℕ) :=
  ((staleRows G moment s).map Subscription.account).dedup.insertionSort
    (fun a b => askedKey G moment s a ≤ askedKey G moment s b)

/-- What came of asking about one account of the sweep. -/
inductive Asked where
  | touched (changes : ℕ)
  | silent
  | unreadable

/-- The accounts of the sweep one after the other, until its window is over. An integration
whose key was refused is not asked again. It answers what it touched and whom it asked. -/
def sweepEach (G : Gateway) (deadline : ℕ) :
    List (ℕ × ℕ) → List ℕ → Db (ℕ × List (ℕ × ℕ))
  | [], _ => pure (0, [])
  | (integrationId, userId) :: rest, unreadable => do
    if deadline ≤ (← now) then pure (0, [])
    else if unreadable.contains integrationId then sweepEach G deadline rest unreadable
    else
      let integration ← require .attributeError
        (← query (·.catalog.integrations.find? (·.id == integrationId)))
      let user ← require .attributeError (← query (·.catalog.users.find? (·.id == userId)))
      let asked ← attempt
        (do
          let changes ← reconcileAccount G integration user
          pure (Asked.touched changes))
        (fun error => match error with
          | .silent _ => pure .silent
          | .unreadable _ => pure .unreadable
          | error => raise error)
      match asked with
      | .unreadable =>
        -- a key that is not there is no question
        let (touched, others) ← sweepEach G deadline rest (integrationId :: unreadable)
        pure (touched, if G.hasSecret integrationId then (integrationId, userId) :: others
          else others)
      | .silent =>
        if rest ≠ [] then elapse pace
        let (touched, others) ← sweepEach G deadline rest unreadable
        pure (touched, (integrationId, userId) :: others)
      | .touched changes =>
        if rest ≠ [] then elapse pace
        let (touched, others) ← sweepEach G deadline rest unreadable
        pure (changes + touched, (integrationId, userId) :: others)

/-- The net under the other two ways to hear of a purchase. -/
def reconcileStale (G : Gateway) : Db (ℕ × List (ℕ × ℕ)) := do
  let moment ← now
  let accounts ← query (fun s => (staleAccounts G moment s).take sweepLimit)
  sweepEach G (moment + sweepWindow) accounts []

end FastKit
