import FastKit.Models.Registry
import FastKit.Transaction.Steps
import Mathlib.Data.List.Sort
import Mathlib.Order.Defs.LinearOrder

/-! # The service of the panel's resources

The one read and write path of what the panel manages: which rows an operator of a brand reaches,
what it may write and what a row it writes may point at, and what goes with a row that is deleted.
What the columns that point nowhere hold, and what a resource checks of them, is whatever its own
service says.
-/

namespace FastKit.Crud
open Relational Transaction Transaction.Program

structure Operator where
  id : ℕ
  tenantId : Option ℕ
  reachesShared : Bool

/-- `Reach`, of a row whose parent carries a tenant and of one whose parent belongs to another. -/
inductive Reach where
  | direct (column : Column) (parent : Model)
  | beyond (column : Column) (parent : Model) (through : Reach)

def Reach.column : Reach → Column
  | direct column _ => column
  | beyond column _ _ => column

def Reach.parent : Reach → Model
  | direct _ parent => parent
  | beyond _ parent _ => parent

def Model.reachesThrough : Model → Option Reach
  | .externalProduct => some (.direct .integrationId .integration)
  | .benefit => some (.direct .entitlementId .entitlement)
  | .planEntitlement => some (.direct .planId .plan)
  | .galleryPhoto => some (.direct .galleryId .gallery)
  | .userAddress | .creditTransaction | .userBalance | .userProduct => some (.direct .userId .user)
  | .userEntitlement | .subscriptionBenefit => some (.direct .subscriptionId .subscription)
  | .benefitGrant =>
    some (.beyond .subscriptionBenefitId .subscriptionBenefit (.direct .subscriptionId .subscription))
  | _ => none

def Model.systemWide : Model → Bool
  | .tenant | .language | .country => true
  | _ => false

def Model.shared : Model → Bool
  | .currency | .product | .contentCategory | .content | .gallery | .galleryPhoto | .banner
  | .integration | .externalProduct | .plan | .entitlement | .planEntitlement | .benefit => true
  | _ => false

/-- The resources `build_router` serves. -/
def Model.managed : Model → Bool
  | .tenant | .language | .country | .user | .userAddress | .currency | .product | .contentCategory
  | .content | .gallery | .galleryPhoto | .banner | .integration | .externalProduct | .plan
  | .entitlement | .planEntitlement | .benefit => true
  | _ => false

/-- `position_field` -/
def Model.positioned : Model → Bool
  | .currency | .product | .gallery | .galleryPhoto => true
  | _ => false

/-- A table that goes before its parent. -/
inductive Dependent where
  | mk (model : Model) (field : Column) (dependents : List Dependent)

def userDependents : List Dependent :=
  [⟨.userAddress, .userId, []⟩, ⟨.userProduct, .userId, []⟩, ⟨.purchase, .userId, []⟩,
    ⟨.creditTransaction, .userId, []⟩, ⟨.userBalance, .userId, []⟩, ⟨.appEvent, .userId, []⟩]

def subscriptionDependents : List Dependent :=
  [⟨.subscriptionBenefit, .subscriptionId, [⟨.benefitGrant, .subscriptionBenefitId, []⟩]⟩,
    ⟨.userEntitlement, .subscriptionId, []⟩]

def integrationDependents : List Dependent :=
  [⟨.webhookEvent, .integrationId, []⟩, ⟨.externalProduct, .integrationId, []⟩]

def entitlementDependents : List Dependent :=
  [⟨.benefit, .entitlementId, []⟩, ⟨.planEntitlement, .entitlementId, []⟩]

def tenantDependents : List Dependent :=
  [⟨.subscription, .tenantId, subscriptionDependents⟩, ⟨.user, .tenantId, userDependents⟩,
    ⟨.integration, .tenantId, integrationDependents⟩,
    ⟨.entitlement, .tenantId, entitlementDependents⟩,
    ⟨.plan, .tenantId, [⟨.planEntitlement, .planId, []⟩]⟩, ⟨.product, .tenantId, []⟩,
    ⟨.currency, .tenantId, []⟩, ⟨.gallery, .tenantId, [⟨.galleryPhoto, .galleryId, []⟩]⟩,
    ⟨.content, .tenantId, []⟩, ⟨.banner, .tenantId, []⟩, ⟨.appEvent, .tenantId, []⟩,
    ⟨.systemLog, .tenantId, []⟩]

def Model.dependents : Model → List Dependent
  | .tenant => tenantDependents
  | .user => userDependents
  | .integration => integrationDependents
  | .entitlement => entitlementDependents
  | .plan => [⟨.planEntitlement, .planId, []⟩]
  | .gallery => [⟨.galleryPhoto, .galleryId, []⟩]
  | .subscription => subscriptionDependents
  | .subscriptionBenefit => [⟨.benefitGrant, .subscriptionBenefitId, []⟩]
  | _ => []

inductive Fault where
  | notFound
  /-- `PermissionError` -/
  | permission
  /-- `error.related-not-found`, by the field. -/
  | relatedNotFound (field : Column)
  /-- `error.record-still-referenced` -/
  | recordStillReferenced
  /-- `error.children-of-a-brand` -/
  | childrenOfABrand
  /-- `error.duplicated-record` -/
  | duplicatedRecord
  /-- `error.cannot-delete-yourself` -/
  | cannotDeleteYourself
  /-- A row that was there is gone as it is written. -/
  | stale
  /-- What the resource refuses itself, by the code. -/
  | refused (code : String)
  deriving DecidableEq

/-- A payload: the keys it names, and the rest of it. -/
structure Data (π : Type) where
  refs : Column → Option (Option ℕ)
  rest : π

abbrev Row (δ : Type) := Record Column δ

abbrev Store (δ : Type) := Tables Model Column δ

/-- What the services say of the columns that point nowhere: what an operator of a brand may name of
them, what is checked of them, what is written of them over what the row holds, by the row as it was
read, and what their indexes refuse. -/
structure Services (π δ : Type) where
  stamped : Model → π → π
  validate : Model → Data π → Option (Row δ) → Store δ → Option Fault
  prepare : Model → Data π → Option (Row δ) → δ → δ
  blank : δ
  taken : Model → Row δ → Store δ → Bool
  position : δ → ℕ
  place : ℕ → δ → δ
  /-- What the trail says of a write. -/
  marks : δ
  /-- Whether the database lets a row that falls with a statement keep another one that does. -/
  lenient : Bool

abbrev Db (δ α : Type) := Program Unit (Store δ) Fault α

variable {π δ : Type} (V : Services π δ) (operator : Operator)

/-- Another statement of the session, before which others run. -/
def pass : Db δ Unit := yield id

def reachesTenant (tenantId column : Option ℕ) : Bool := column = tenantId || column.isNone

def belongsToTenant (tenantId column : Option ℕ) : Bool := column = tenantId

def Reach.through (holds : Option ℕ → Bool) (s : Store δ) : Reach → Row δ → Bool
  | .direct column parent, r =>
    ((r.refs column).bind (s parent).get).any (fun p => holds (p.refs .tenantId))
  | .beyond column parent next, r =>
    ((r.refs column).bind (s parent).get).any (next.through holds s)

/-- What the operator asks of a tenant: its own, or none where it reads what the brands share. -/
def wanted (m : Model) (writing : Bool) : Option ℕ → Bool :=
  if operator.reachesShared && m.shared && !writing then reachesTenant operator.tenantId
  else belongsToTenant operator.tenantId

/-- `CrudService.confinement`, of a row. -/
def confinement (m : Model) (writing : Bool) (s : Store δ) (r : Row δ) : Bool :=
  if operator.tenantId.isNone || m.systemWide then true
  else if m.hasTenant then wanted operator m writing (r.refs .tenantId)
  else m.reachesThrough.any (fun reach => reach.through (wanted operator m writing) s r)

def find (m : Model) (id : ℕ) (writing : Bool) (s : Store δ) : Option (Row δ) :=
  ((s m).get id).filter (confinement operator m writing s)

def get (m : Model) (id : ℕ) (writing : Bool) : Db δ (Row δ) := do
  require .notFound (← query (find operator m id writing))

def stamped (m : Model) (data : Data π) : Data π :=
  match operator.tenantId with
  | none => data
  | some tenant =>
    ⟨if m.hasTenant then Function.update data.refs .tenantId (some (some tenant)) else data.refs,
      V.stamped m data.rest⟩

/-- The row a key is asked to lead to, where it is asked of it: one that is named and is not what
the edited row holds already. -/
def asked (data : Data π) (instance' : Option (Row δ)) (k : Key Model Column) : Option ℕ :=
  (data.refs k.column).join.filter (fun id => !instance'.any (fun r => r.refs k.column = some id))

/-- `CrudService.ensure_references_are_reachable`, over the keys that are left. -/
def ensureReferencesAreReachable (m : Model) (data : Data π) (instance' : Option (Row δ)) :
    List (Key Model Column) → Db δ Unit
  | [] => pure ()
  | k :: keys => do
    match asked data instance' k with
    | none => ensureReferencesAreReachable m data instance' keys
    | some id =>
      let writing := (m.reachesThrough.map Reach.column) = some k.column
      match ← query (find operator k.target id writing) with
      | none => raise (.relatedNotFound k.column)
      | some _ =>
        pass
        ensureReferencesAreReachable m data instance' keys

/-- Every key that leads to a table, by the table it is a column of. -/
def referring (m : Model) : List (Model × Key Model Column) :=
  Model.all.flatMap (fun n => (n.keys.filter (·.target = m)).map (fun k => (n, k)))

def referrersAreGone (id : ℕ) : List (Model × Key Model Column) → Db δ Unit
  | [] => pure ()
  | (n, k) :: rest => do
    if ← query (fun s => (s n).rows.any (fun r => r.refs k.column = some id)) then
      raise .recordStillReferenced
    else
      pass
      referrersAreGone id rest

/-- The tenant a payload names, or the one the row has. -/
def tenantOf (data : Data π) (row : Row δ) : Option ℕ := (data.refs .tenantId).getD (row.refs .tenantId)

def ensureReferrersStillReach (m : Model) (data : Data π) (row : Row δ) : Db δ Unit :=
  if !m.hasTenant || tenantOf data row = none || tenantOf data row = row.refs .tenantId then pure ()
  else referrersAreGone row.id (referring m)

/-- Every key of a child of a table, by the child and the key it belongs to its parent by. -/
def childKeys (m : Model) : List (Model × Column × Key Model Column) :=
  Model.all.flatMap (fun child => match child.reachesThrough with
    | none => []
    | some reach =>
      if reach.parent = m then
        (child.keys.filter (fun k => k.column ≠ reach.column && k.target.hasTenant)).map
          (fun k => (child, reach.column, k))
      else [])

def childrenAreShared (id : ℕ) : List (Model × Column × Key Model Column) → Db δ Unit
  | [] => pure ()
  | (child, column, k) :: rest => do
    if ← query (fun s => (s child).rows.any (fun r => r.refs column = some id &&
        (follow s r k).any (fun p => (p.refs .tenantId).isSome))) then
      raise .childrenOfABrand
    else
      pass
      childrenAreShared id rest

def ensureChildrenStayShared (m : Model) (data : Data π) (row : Row δ) : Db δ Unit :=
  if !m.hasTenant || row.refs .tenantId = none || tenantOf data row ≠ none then pure ()
  else childrenAreShared row.id (childKeys m)

/-- `declared`, of a column that points at a row. -/
def declared (data : Data π) (instance' : Option (Row δ)) (column : Column) : Option ℕ :=
  (data.refs column).getD (instance'.bind (·.refs column))

def ensureReaches (target : Model) (targetId tenantId : Option ℕ) (fault : Fault) (s : Store δ) :
    Option Fault :=
  match targetId with
  | none => none
  | some id => match (s target).get id with
    | none => some fault
    | some p => if p.refs .tenantId = none ∨ p.refs .tenantId = tenantId then none else some fault

/-- What is checked of a row by the tenant of its parent, which has to be there. -/
def ofParent (parent : Model) (parentId : Option ℕ) (check : Option ℕ → Option Fault) (s : Store δ) :
    Option Fault :=
  match parentId.bind (s parent).get with
  | none => some (.refused "AttributeError")
  | some p => check (p.refs .tenantId)

/-- What `validate` checks of what a row points at, at its end. -/
def validateReaches (m : Model) (data : Data π) (instance' : Option (Row δ)) (s : Store δ) :
    Option Fault :=
  let declared := declared data instance'
  match m with
  | .content => ensureReaches .contentCategory (declared .categoryId) (declared .tenantId)
      (.relatedNotFound .categoryId) s
  | .product => ensureReaches .currency (declared .creditsCurrencyId) (declared .tenantId)
      (.relatedNotFound .creditsCurrencyId) s
  | .benefit => ofParent .entitlement (declared .entitlementId) (fun tenantId =>
      (ensureReaches .product (declared .productId) tenantId
        (.refused "error.product-out-of-tenant") s).or
      (ensureReaches .currency (declared .currencyId) tenantId (.relatedNotFound .currencyId) s)) s
  | .externalProduct => ofParent .integration (declared .integrationId) (fun tenantId =>
      ensureReaches .plan (declared .planId) tenantId (.relatedNotFound .planId) s) s
  | .planEntitlement => ofParent .plan (declared .planId) (fun tenantId =>
      ensureReaches .entitlement (declared .entitlementId) tenantId
        (.relatedNotFound .entitlementId) s) s
  | _ => none

/-- `validate`, of what it reads. -/
def validate (m : Model) (data : Data π) (instance' : Option (Row δ)) (s : Store δ) : Option Fault :=
  (V.validate m data instance' s).or (validateReaches m data instance' s)

/-- Whether the database takes the row: its keys lead to rows, none is empty that may not be, and no
index refuses it. -/
def accepted (m : Model) (r : Row δ) (s : Store δ) : Bool :=
  m.keys.all (fun k => match r.refs k.column with
    | none => k.nullable
    | some _ => (follow s r k).isSome) && !V.taken m r s

def made (m : Model) (data : Data π) (id : ℕ) : Row δ :=
  ⟨id, fun column => if column ∈ m.keys.map Key.column then (data.refs column).join else none,
    V.prepare m data none V.blank⟩

/-- A row of a table with the id the table hands out. -/
def insertRow (m : Model) (make : ℕ → Row δ) (s : Store δ) : Option (Row δ × Store δ) :=
  if accepted V m (make (s m).next) s then
    ((s m).insert make).map (fun p => (p.1, Function.update s m p.2))
  else none

/-- What the trail keeps of who wrote. -/
def trail (id : ℕ) : Row δ :=
  ⟨id, fun column => if column = .tenantId then operator.tenantId
    else if column = .userId then some operator.id else none, V.marks⟩

def written : Db δ Unit := do
  match ← query (insertRow V .systemLog (trail V operator)) with
  | none => raise .duplicatedRecord
  | some (_, s) =>
    execute (fun _ => s)
    publish

def create (m : Model) (data : Data π) : Db δ (Row δ) := do
  let data := stamped V operator m data
  ensureReferencesAreReachable operator m data none m.keys
  match ← query (validate V m data none) with
  | some e => raise e
  | none =>
    pass
    match ← query (insertRow V m (made V m data)) with
    | none => raise .duplicatedRecord
    | some (row, s) =>
      execute (fun _ => s)
      publish
      get operator m row.id false

/-- The row with what a payload changes of the row that was read. -/
def edited (m : Model) (data : Data π) (row now : Row δ) : Row δ :=
  { now with
    refs := fun column => if column ∈ m.keys.map Key.column then
        match data.refs column with
        | some value => if value = row.refs column then now.refs column else value
        | none => now.refs column
      else now.refs column
    rest := V.prepare m data (some row) now.rest }

theorem still_edited (m : Model) (data : Data π) (row : Row δ) : Still (edited V m data row) :=
  fun _ => ⟨rfl, rfl⟩

def updateRow (m : Model) (data : Data π) (row : Row δ) (s : Store δ) : Except Fault (Store δ) :=
  match (s m).get row.id with
  | none => .error .stale
  | some now =>
    if accepted V m (edited V m data row now) s then
      .ok (Function.update s m ((s m).modify (·.id = row.id) (edited V m data row)
        (still_edited V m data row)))
    else .error .duplicatedRecord

def ofTenant (tenantId : Option ℕ) (r : Row δ) : Row δ :=
  { r with refs := Function.update r.refs .tenantId tenantId }

theorem still_ofTenant (tenantId : Option ℕ) : Still (ofTenant (δ := δ) tenantId) := fun _ => ⟨rfl, rfl⟩

/-- What `UserService.validate` writes: the ways an account signs in go where it goes. -/
def moveIdentities (m : Model) (data : Data π) (row : Row δ) (s : Store δ) : Option (Store δ) :=
  if m = .user ∧ tenantOf data row ≠ row.refs .tenantId then
    if (s .socialIdentity).rows.all (fun r => r.refs .userId ≠ some row.id ||
        accepted V .socialIdentity (ofTenant (tenantOf data row) r) s) then
      some (Function.update s .socialIdentity ((s .socialIdentity).modify
        (fun r => r.refs .userId = some row.id) (ofTenant (tenantOf data row)) (still_ofTenant _)))
    else none
  else some s

def update (m : Model) (id : ℕ) (data : Data π) : Db δ (Row δ) := do
  let row ← get operator m id true
  let data := stamped V operator m data
  pass
  ensureReferencesAreReachable operator m data (some row) m.keys
  ensureReferrersStillReach m data row
  ensureChildrenStayShared m data row
  match ← query (validate V m data (some row)) with
  | some e => raise e
  | none =>
    pass
    match ← query (moveIdentities V m data row) with
    | none => raise (.refused "error.social-identity-in-use")
    | some s =>
      execute (fun _ => s)
      match ← query (updateRow V m data row) with
      | .error e => raise e
      | .ok s =>
        execute (fun _ => s)
        publish
        get operator m id false

/-- The ids of the rows of a table whose column is among the ids. -/
def among (model : Model) (field : Column) (parents : Store δ → ℕ → Bool) (s : Store δ) (id : ℕ) :
    Bool := ((s model).get id).any (fun r => (r.refs field).any (parents s))

/-- `DELETE` of the rows of a table of the ids. -/
def deleteIds (lenient : Bool) (model : Model) (ids : Store δ → ℕ → Bool) (s : Store δ) :
    Option (Store δ) := delete schema s (fun i id => i = model && ids s id) lenient

mutual

/-- One table of `CrudService.delete_dependents`, what depends on it first. -/
def Dependent.delete (lenient : Bool) (parents : Store δ → ℕ → Bool) :
    Dependent → Store δ → Option (Store δ)
  | ⟨model, field, dependents⟩, s =>
    (deleteDependents lenient (among model field parents) dependents s).bind
      (deleteIds lenient model (among model field parents))

def deleteDependents (lenient : Bool) (parents : Store δ → ℕ → Bool) :
    List Dependent → Store δ → Option (Store δ)
  | [], s => some s
  | d :: ds, s => (d.delete lenient parents s).bind (deleteDependents lenient parents ds)

end

def deleteRow (m : Model) (id : ℕ) (s : Store δ) : Option (Store δ) :=
  (deleteDependents V.lenient (fun _ i => i = id) m.dependents s).bind
    (deleteIds V.lenient m (fun _ i => i = id))

def deleteRecord (m : Model) (id : ℕ) : Db δ Unit := do
  let _ ← get operator m id true
  pass
  match ← query (deleteRow V m id) with
  | none => raise .recordStillReferenced
  | some s =>
    execute (fun _ => s)
    publish

/-- A row in the place the order gives it. -/
def placed (ids : List ℕ) (r : Row δ) : Row δ := { r with rest := V.place (ids.idxOf r.id) r.rest }

theorem still_placed (ids : List ℕ) : Still (placed V ids) := fun _ => ⟨rfl, rfl⟩

def moves (ids : List ℕ) (rows : List (Row δ)) (id : ℕ) : Bool :=
  rows.any (fun r => r.id = id && V.position r.rest ≠ ids.idxOf id)

/-- `order_by(position, id)` -/
def ahead (a b : Row δ) : Prop :=
  V.position a.rest < V.position b.rest ∨ V.position a.rest = V.position b.rest ∧ a.id ≤ b.id

instance : DecidableRel (ahead V) := fun _ _ => inferInstanceAs (Decidable (_ ∨ _))

def reorder (m : Model) (ids : List ℕ) : Db δ (List (Row δ)) := do
  let rows ← query (fun s => (s m).select (fun r => confinement operator m true s r && ids.contains r.id))
  if rows.length ≠ ids.length then raise .notFound
  else
    pass
    if ← query (fun s => rows.all (fun r => !moves V ids rows r.id || ((s m).get r.id).isSome)) then
      execute (fun s => Function.update s m ((s m).modify (fun r => moves V ids rows r.id) (placed V ids)
        (still_placed V ids)))
      publish
      query (fun s => ((s m).select (fun r => ids.contains r.id)).insertionSort (ahead V))
    else raise .stale

/-- `relations`, by the columns they lead through. -/
def Model.relations : Model → List (List Column)
  | .appEvent | .systemLog => [[.tenantId], [.userId]]
  | .banner | .gallery | .plan | .user => [[.tenantId], [.languageId]]
  | .benefitGrant => [[.subscriptionBenefitId, .subscriptionId, .userId]]
  | .benefit => [[.entitlementId], [.productId], [.currencyId]]
  | .contentCategory | .currency | .entitlement | .integration | .newsletterSubscription
  | .outboundEmail => [[.tenantId]]
  | .content => [[.tenantId], [.categoryId], [.languageId]]
  | .creditTransaction | .userBalance => [[.userId], [.currencyId]]
  | .externalProduct => [[.integrationId, .tenantId], [.planId]]
  | .galleryPhoto => [[.galleryId]]
  | .planEntitlement => [[.planId], [.entitlementId]]
  | .product => [[.tenantId], [.creditsCurrencyId]]
  | .purchase => [[.tenantId], [.userId], [.productId]]
  | .subscriptionBenefit => [[.subscriptionId, .userId], [.productId], [.currencyId]]
  | .subscription => [[.tenantId], [.userId], [.planId]]
  | .userAddress => [[.userId]]
  | .userEntitlement => [[.entitlementId], [.subscriptionId, .userId]]
  | .userProduct => [[.userId], [.productId]]
  | .webhookEvent => [[.tenantId], [.integrationId, .tenantId]]
  | _ => []

/-- The rows a relation of a row leads through. -/
def loaded (s : Store δ) : Model → Row δ → List Column → List (Row δ)
  | _, _, [] => []
  | m, r, column :: path =>
    match m.keys.find? (·.column = column) with
    | none => []
    | some k =>
      match follow s r k with
      | none => []
      | some p => p :: loaded s k.target p path

/-- `Elsewhere`, of a filter that names a row of another table: a row that lends its tenant to what
reaches it, or the account at the end of a path. -/
inductive Elsewhere where
  | reaches (target : Model)
  | heldBy (path : List Column)

def Model.filtersElsewhere : Model → List (Column × Elsewhere)
  | .currency | .product => [(.entitlementId, .reaches .entitlement)]
  | .plan => [(.integrationId, .reaches .integration)]
  | .benefitGrant => [(.userId, .heldBy [.subscriptionBenefitId, .subscriptionId])]
  | .userEntitlement | .subscriptionBenefit => [(.userId, .heldBy [.subscriptionId])]
  | _ => []

def leadsTo (userId : ℕ) (s : Store δ) : Model → Row δ → List Column → Bool
  | _, r, [] => r.refs .userId = some userId
  | m, r, column :: path =>
    match m.keys.find? (·.column = column) with
    | none => false
    | some k => (follow s r k).any (fun p => leadsTo userId s k.target p path)

def Elsewhere.narrows (value : ℕ) (s : Store δ) (m : Model) (r : Row δ) : Elsewhere → Bool
  | .reaches target =>
    ((s target).get value).any (fun p => reachesTenant (p.refs .tenantId) (r.refs .tenantId))
  | .heldBy path => leadsTo value s m r path

/-- What a listing asks for: which rows by what they hold and by what else they are filtered by, how
well one answers what is searched, what they are ordered by, and which page. -/
structure Listing (δ κ : Type) where
  wanted : Row δ → Bool
  elsewhere : Column → Option ℕ
  rank : Row δ → ℕ
  column : Row δ → κ
  descending : Bool
  limit : ℕ
  offset : ℕ

/-- `apply_filters`, of the filters that name something of another table. -/
def Listing.narrows {κ : Type} (L : Listing δ κ) (s : Store δ) (m : Model) (r : Row δ) : Bool :=
  m.filtersElsewhere.all (fun f => (L.elsewhere f.1).all (fun value => f.2.narrows value s m r))

/-- By the column first, and by the id where it ties. -/
def Listing.settled {κ : Type} [LT κ] (L : Listing δ κ) (a b : Row δ) : Prop :=
  L.column a < L.column b ∨ L.column a = L.column b ∧ a.id ≤ b.id

/-- `apply_ordering`: what answers the search better first, then the order that is asked for. -/
def Listing.ahead {κ : Type} [LT κ] (L : Listing δ κ) (a b : Row δ) : Prop :=
  L.rank b < L.rank a ∨ L.rank a = L.rank b ∧ if L.descending then L.settled b a else L.settled a b

instance {κ : Type} [LinearOrder κ] (L : Listing δ κ) : DecidableRel L.settled :=
  fun _ _ => inferInstanceAs (Decidable (_ ∨ _))

instance {κ : Type} [LinearOrder κ] (L : Listing δ κ) : DecidableRel L.ahead :=
  fun _ _ => inferInstanceAs (Decidable (_ ∨ _))

def listed {κ : Type} [LinearOrder κ] (m : Model) (L : Listing δ κ) (s : Store δ) : List (Row δ) :=
  ((s m).select (fun r => confinement operator m false s r && (L.wanted r && L.narrows s m r))
    ).insertionSort L.ahead

/-- `CrudService.paginate`, with the relations of each row. -/
def paginate {κ : Type} [LinearOrder κ] (m : Model) (L : Listing δ κ) (s : Store δ) :
    ℕ × List (Row δ × List (List (Row δ))) :=
  ((listed operator m L s).length,
    (((listed operator m L s).drop L.offset).take L.limit).map
      (fun r => (r, m.relations.map (loaded s m r))))

inductive Call (π : Type) where
  | create (m : Model) (data : Data π)
  | update (m : Model) (id : ℕ) (data : Data π)
  | delete (m : Model) (id : ℕ)
  | reorder (m : Model) (ids : List ℕ)

def Call.model : Call π → Model
  | create m _ => m
  | update m _ _ => m
  | delete m _ => m
  | reorder m _ => m

def Call.routed : Call π → Bool
  | reorder m _ => m.managed && m.positioned
  | c => c.model.managed

/-- What a route does: a table of the system is kept from the operators of the brands, nobody deletes
the account it is signed in as, and every write is written down. -/
def Call.serve (c : Call π) : Db δ Unit := do
  if !c.routed then raise .notFound
  else if c.model.systemWide && operator.tenantId.isSome then raise .permission
  else
    match c with
    | .create m data => do
      let _ ← Crud.create V operator m data
      written V operator
    | .update m id data => do
      let _ ← Crud.update V operator m id data
      written V operator
    | .delete m id => do
      if m = .user && id = operator.id then raise .cannotDeleteYourself
      else
        deleteRecord V operator m id
        written V operator
    | .reorder m ids => do
      let _ ← Crud.reorder V operator m ids
      written V operator

abbrev Sessions (δ : Type) := Pool Unit (Store δ) Fault (Unit × Unit)

/-- A session for each call, by who makes it, none of which ran yet. -/
def sessions (calls : List (Operator × Call π)) (s : Store δ) : Sessions δ :=
  ⟨s, calls.map (fun c => session (c.2.serve V c.1) () s)⟩

end FastKit.Crud
