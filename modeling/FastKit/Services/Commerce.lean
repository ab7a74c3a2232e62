import FastKit.Services.Credits

/-! # The commerce service

A purchase is written down before the buyer leaves, and the notices of a gateway move it.
Paid is the only word that hands the product over.
-/

namespace FastKit
open Transaction Transaction.Program

def purchaseOf (id : ℕ) : Db Purchase := do
  match ← remembered (·.purchases.find? (·.id == id)) with
  | some purchase => pure purchase
  | none =>
    let purchase ← require .attributeError (← query (·.purchases.get id))
    remember (Memory.keepPurchase purchase)
    pure purchase

def refreshPurchase (id : ℕ) : Db Unit := do
  let purchase ← require .invalidRequest (← query (·.purchases.get id))
  remember (Memory.keepPurchase purchase)

/-- What a checkout writes before the buyer leaves. -/
def openedPurchase (userId productId : ℕ) (integrationId : Option ℕ) (reference id : ℕ) :
    Purchase :=
  { id := id
    userId := userId
    productId := productId
    integrationId := integrationId
    reference := reference
    externalId := none
    status := .pending
    paidAt := none }

/-- Opens a purchase under the reference minted for it, unless the account owns the product. -/
def openCheckout (userId productId : ℕ) (integrationId : Option ℕ) (reference : ℕ) :
    Db Purchase := do
  if (← query (·.userProducts.find
      (fun p => p.userId == userId && p.productId == productId))).isSome then
    raise (.conflict "error.product-already-owned")
  else
    match ← query (·.purchases.insert (openedPurchase userId productId integrationId reference)) with
    | some (purchase, t) =>
      execute (fun s => { s with purchases := t })
      remember (Memory.keepPurchase purchase)
      persist
      pure purchase
    | none =>
      rollback
      raise (.conflict "error.duplicated-record")

/-- Whether a notice leaves a purchase where it stands: it is there already, nothing goes back
to waiting, money that went back is final, and what is settled is never unsettled. -/
def stands (current status : PurchaseStatus) : Bool :=
  current == status || status == .pending || current == .refunded ||
    (current.settled && !status.settled)

/-- What a notice writes over a purchase it moves. -/
def settlement (status : PurchaseStatus) (externalId : Option ℕ) (moment : ℕ) (p : Purchase) :
    Purchase :=
  { p with
    status := status
    externalId := externalId <|> p.externalId
    paidAt := if status = .paid then some moment else p.paidAt }

/-- Moves a purchase as a gateway said, against the status it was decided on. A notice that
lost decides again. -/
def settlePurchase (id : ℕ) (status : PurchaseStatus) (externalId : Option ℕ) : ℕ → Db Purchase
  | 0 => raise .recursion
  | again + 1 => do
    let purchase ← purchaseOf id
    if stands purchase.status status then pure purchase
    else
      -- another notice may land between the reading and the move
      publish
      let moment ← now
      remember (Memory.syncPurchase id (settlement status externalId moment))
      if (← query (·.purchases.get id)).any (·.status == purchase.status) then
        let t ← require .integrity
          (← query (·.purchases.alter (·.id == id) (settlement status externalId moment)))
        execute (fun s => { s with purchases := t })
        if status = .paid then
          let _ ← commerceGrant purchase.userId purchase.productId (.purchase purchase.reference)
            none (some id) none
        persist
        purchaseOf id
      else
        refreshPurchase id
        settlePurchase id status externalId again

/-- How often a notice may lose and decide again before the language stops it. -/
def settleRounds : ℕ := 1000

/-- A product is bought at a gateway: the purchase is written down, and closed where the
gateway opened no session for it. -/
def forProduct (userId productId integrationId reference : ℕ) (opened : Bool) : Db Unit := do
  let purchase ← openCheckout userId productId (some integrationId) reference
  publish
  if opened then pure ()
  else
    let _ ← settlePurchase purchase.id .failed none settleRounds
    raise (.conflict "error.checkout-unavailable")

end FastKit
