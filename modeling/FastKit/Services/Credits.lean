import FastKit.Models.Store

/-! # The ledger

A credit movement, and the product an account is handed. A movement is written over a
discipline that says where other sessions may run while it does: the services run it in
one piece between two commits, and the row lock is what serialises it otherwise.
-/

namespace FastKit
open Transaction Transaction.Program

/-- The largest value a balance column holds. -/
def bigIntegerMax : ℤ := 9223372036854775807

/-- The direction of a movement, where an adjustment carries its own. -/
def directions : CreditTransactionType → Option ℤ
  | .credit => some 1
  | .debit => some (-1)
  | .reversal => some (-1)
  | .adjustment => none

def signedAmount (type : CreditTransactionType) (amount : ℤ) : Except Fault ℤ :=
  match directions type with
  | none => .ok amount
  | some direction =>
    if amount < 0 then .error (.validation "error.amount-must-be-positive" "amount")
    else .ok (direction * amount)

/-- Where other sessions may run while a movement is being made, and what its balance row
being locked means for them. -/
structure Discipline where
  /-- Between two statements, nothing being locked or written. -/
  pause : Db Unit
  /-- Around the statements that run while the balance row is locked. -/
  critical : ℕ → ℕ → Db CreditTransaction → Db CreditTransaction
  /-- Between two statements while the row is locked. -/
  yield : (Store → Store) → Db Unit
  /-- Lets go of the row with no movement written. -/
  leave : ℕ → ℕ → Db Unit
  persist : ℕ → ℕ → Db Unit

/-- Nobody else runs until the movement commits. -/
def Discipline.whole : Discipline where
  pause := pure ()
  critical := fun _ _ body => body
  yield := fun _ => pure ()
  leave := fun _ _ => pure ()
  persist := fun _ _ => FastKit.persist

def unlock (userId currencyId : ℕ) : Db Unit :=
  execute (fun s => { s with locks := s.locks.erase (userId, currencyId) })

/-- Other sessions run between any two statements, and wait for the balance row where it
is locked. -/
def Discipline.rowLock : Discipline where
  pause := publish
  critical := fun userId currencyId body => do
    await (fun s => !s.locks.contains (userId, currencyId))
    execute (fun s => { s with locks := (userId, currencyId) :: s.locks })
    publish
    attempt body (fun error => do
      rollback
      unlock userId currencyId
      publish
      raise error)
  yield := Program.yield
  leave := fun userId currencyId => do
    unlock userId currencyId
    publish
  persist := fun userId currencyId => do
    unlock userId currencyId
    FastKit.persist

def heldBy (userId currencyId : ℕ) (b : UserBalance) : Bool :=
  b.userId == userId && b.currencyId == currencyId

/-- The row an account holds one currency in before its first movement. -/
def emptyBalance (userId currencyId : ℕ) (id : ℕ) : UserBalance := ⟨id, userId, currencyId, 0⟩

/-- The row an account holds one currency in, locked for the movement about to be written. -/
def held (userId currencyId : ℕ) : Db UserBalance := do
  let _ ← insertOrRead Store.balances (fun t s => { s with balances := t })
    (heldBy userId currencyId) (emptyBalance userId currencyId)
  require .attributeError (← query (·.balances.find (heldBy userId currencyId)))

def holding (userId currencyId : ℕ) (s : Store) : Store :=
  match s.balances.find (heldBy userId currencyId) with
  | some _ => s
  | none =>
    match s.balances.insert (emptyBalance userId currencyId) with
    | some (_, t) => { s with balances := t }
    | none => s

def settledByKey (key : IdempotencyKey) : Db (Option CreditTransaction) :=
  query (·.transactions.find (·.idempotencyKey == key))

def writeMovement (D : Discipline) (held : UserBalance) (signed : ℤ)
    (type : CreditTransactionType) (description : Option String) (key : IdempotencyKey)
    (benefitGrantId : Option ℕ) : Db CreditTransaction := do
  let entry := fun id => (⟨id, held.userId, held.currencyId, benefitGrantId, type, signed,
    held.amount + signed, key, description⟩ : CreditTransaction)
  match ← query (·.transactions.insert entry) with
  | some (transaction, t) =>
    execute (fun s => { s with
      transactions := t
      -- the row of the pair, which has one
      balances := s.balances.modify (heldBy held.userId held.currencyId)
        (fun b => { b with amount := held.amount + signed }) (fun _ => ⟨rfl, rfl⟩) })
    D.persist held.userId held.currencyId
    pure transaction
  | none =>
    rollback
    raise (.conflict "error.duplicated-record")

/-- The statements of a movement that run while its balance row is locked. -/
def moveHeld (D : Discipline) (userId currencyId : ℕ) (type : CreditTransactionType) (amount : ℤ)
    (description : Option String) (key : IdempotencyKey) (benefitGrantId : Option ℕ) :
    Db CreditTransaction := do
  let held ← held userId currencyId
  match ← settledByKey key with
  | some settled =>
    D.leave userId currencyId
    pure settled
  | none =>
    D.yield (holding userId currencyId)
    match signedAmount type amount with
    | .error error => raise error
    | .ok signed =>
      if held.amount + signed < 0 then
        raise (.validation "error.insufficient-credits" "amount")
      else if bigIntegerMax < held.amount + signed then
        raise (.validation "error.balance-out-of-range" "amount")
      else writeMovement D held signed type description key benefitGrantId

def move (D : Discipline) (userId currencyId : ℕ) (type : CreditTransactionType) (amount : ℤ)
    (description : Option String) (key : IdempotencyKey) (benefitGrantId : Option ℕ) :
    Db CreditTransaction := do
  match ← settledByKey key with
  | some existing => pure existing
  | none =>
    D.pause
    let user ← require .attributeError (← query (·.catalog.users.find? (·.id == userId)))
    let currency ← require .attributeError
      (← query (·.catalog.currencies.find? (·.id == currencyId)))
    -- a currency of another brand is one the account cannot hold
    if currency.tenantId.isSome && currency.tenantId != user.tenantId then
      raise (.validation "error.related-not-found" "currency_id")
    else
      D.critical userId currencyId
        (moveHeld D userId currencyId type amount description key benefitGrantId)

/-- A manual entry, under a token of its own. -/
def createTransaction (D : Discipline) (userId currencyId : ℕ) (type : CreditTransactionType)
    (amount : ℤ) (description : Option String) (token : ℕ) : Db CreditTransaction := do
  if (← query (·.catalog.users.find? (·.id == userId))).isNone then
    raise (.validation "error.related-not-found" "user_id")
  else if (← query (·.catalog.currencies.find? (·.id == currencyId))).isNone then
    raise (.validation "error.related-not-found" "currency_id")
  else
    let transaction ← move D userId currencyId type amount description (.token token) none
    persist
    pure transaction

/-- Hands the product over once, and answers whether this call is the one that did it. -/
def commerceGrant (userId productId : ℕ) (sourceKey : IdempotencyKey)
    (subscriptionId purchaseId benefitGrantId : Option ℕ) : Db (UserProduct × Bool) := do
  let moment ← now
  let owned := fun id => (⟨id, userId, productId, subscriptionId, purchaseId, benefitGrantId,
    moment⟩ : UserProduct)
  let (settled, granted) ← require .attributeError
    (← insertOrRead Store.userProducts (fun t s => { s with userProducts := t })
      (fun p => p.userId == userId && p.productId == productId) owned)
  if !granted then pure (settled, false)
  else
    let product ← require .attributeError
      (← query (·.catalog.products.find? (·.id == productId)))
    match product.creditsCurrencyId with
    | some currencyId =>
      if product.credits ≠ 0 then
        let _ ← move .whole userId currencyId .credit product.credits (some product.name)
          sourceKey benefitGrantId
    | none => pure ()
    persist
    pure (settled, true)

end FastKit
