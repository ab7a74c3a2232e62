import FastKit.Catalogue.Picks
import Mathlib.Data.List.Infix
import Mathlib.Data.String.Basic

/-! # What a brand lists and what it opens

Resources written once for each language and reached by their tag, and products reached by their
slug. A brand reaches its own rows and those of no brand at all.
-/

namespace FastKit.Catalogue

open Picks (sortedBy firsts)

/-- A row without a tenant is shared with every one of them. -/
def reachesTenant (owner tenantId : Option ℕ) : Bool := owner = tenantId || owner = none

structure Tagged where
  id : ℕ
  tenantId : Option ℕ
  languageId : Option ℕ
  tag : String
  active : Bool
  position : ℤ
  deriving DecidableEq

/-- The rows of such a resource, the codes of the languages, and the default one of the instance. -/
structure Tags where
  rows : List Tagged
  ids : (rows.map Tagged.id).Nodup
  codeIso639 : ℕ → Option String
  defaultLanguage : String

namespace Tags

variable (T : Tags)

/-- The language asked for first, the default language behind it, and any other one last. -/
def languageRanking (language : Option String) (row : Tagged) : ℕ :=
  let code := row.languageId.bind T.codeIso639
  match language.filter (· ≠ "") with
  | some asked => if code = some asked then 0 else if code = some T.defaultLanguage then 1 else 2
  | none => if code = some T.defaultLanguage then 0 else 1

/-- The order one row of a tag answers by. -/
def languageOrder (language : Option String) (row : Tagged) : ℕ ×ₗ Bool ×ₗ ℕ :=
  toLex (T.languageRanking language row, toLex (row.tenantId.isNone, row.id))

def byLanguage (language : Option String) (rows : List Tagged) : List Tagged :=
  sortedBy (T.languageOrder language) rows

def reachable (tenantId : Option ℕ) : List Tagged :=
  T.rows.filter fun row => row.active && reachesTenant row.tenantId tenantId

def findByTag (tag : String) (tenantId : Option ℕ) (language : Option String) : Option Tagged :=
  (T.byLanguage language ((T.reachable tenantId).filter fun row => row.tag = tag)).head?

end Tags

/-- One row for each tag, in the order of a listing. -/
def onePerKey {κ : Type} [LinearOrder κ] (ordering : Tagged → κ) (rows : List Tagged) :
    List Tagged :=
  sortedBy ordering (firsts Tagged.tag rows)

def Tags.listReachable {κ : Type} [LinearOrder κ] (T : Tags) (listingFields : Tagged → κ)
    (tenantId : Option ℕ) (language : Option String) : List Tagged :=
  onePerKey listingFields (T.byLanguage language (T.reachable tenantId))

def Content.listingFields (row : Tagged) : ℕ := row.id

def Gallery.listingFields (row : Tagged) : ℤ ×ₗ ℕ := toLex (row.position, row.id)

structure Product where
  id : ℕ
  tenantId : Option ℕ
  name : String
  slug : String
  active : Bool
  position : ℤ
  deriving DecidableEq

/-- The products, a slug being unique inside a tenant and among the shared ones. -/
structure Products where
  rows : List Product
  ids : (rows.map Product.id).Nodup
  slugs : (rows.map fun row => (row.tenantId.getD 0, row.slug)).Nodup

/-- What a database finds a term in: a piece of an identifier, and words of a prose with how well
they match. -/
structure Search where
  term : String
  contains : String → String → Bool
  text : String → String → Bool
  rank : String → String → ℕ

namespace Search

/-- Whether a product is found, which every one is without a term. -/
def finds (search : Search) (row : Product) : Bool :=
  search.term = "" || search.contains row.slug search.term || search.text row.name search.term

/-- The best match first, and products of one rank by their position. -/
def order (search : Search) (row : Product) : ℕᵒᵈ ×ₗ ℤ ×ₗ ℕ :=
  toLex (OrderDual.toDual (search.rank row.name search.term), toLex (row.position, row.id))

end Search

namespace Products

variable (P : Products)

def reachable (tenantId : Option ℕ) : List Product :=
  P.rows.filter fun row => row.active && reachesTenant row.tenantId tenantId

def listReachable (tenantId : Option ℕ) (search : Search) : List Product :=
  let found := sortedBy search.order ((P.reachable tenantId).filter search.finds)
  let owned := (found.filter fun row => row.tenantId ≠ none).map Product.slug
  found.filter fun row => row.tenantId ≠ none || row.slug ∉ owned

def findReachable (tenantId : Option ℕ) (slug : String) : Option Product :=
  (sortedBy (fun row => (toLex (row.tenantId.isNone, row.id) : Bool ×ₗ ℕ))
    ((P.reachable tenantId).filter fun row => row.slug = slug)).head?

end Products

end FastKit.Catalogue
