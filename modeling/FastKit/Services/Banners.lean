import FastKit.Calendar
import FastKit.Services.Retention
import FastKit.Transaction.Pool

/-! # The banner service

A banner counts who saw it and who followed it. One visitor counts once a day for one banner: the
row of an impression is what says so, and the total only moves for whoever wrote that row. The
store here is what counting reads and writes, and what retention drops of it.
-/

namespace FastKit.Banners
open Transaction Transaction.Program

inductive BannerCountKind where
  | view | click
  deriving DecidableEq, Repr

structure Banner where
  id : ℕ
  tenantId : Option ℕ
  uuid : String
  views : ℕ
  clicks : ℕ

/-- `banner_uuid` -/
instance : Keyed Banner String := ⟨(·.id), fun b => [b.uuid]⟩

/-- What `banner_impression_once` is about. -/
structure Key where
  bannerId : ℕ
  kind : BannerCountKind
  visitor : String
  day : ℕ
  deriving DecidableEq

structure BannerImpression where
  id : ℕ
  key : Key
  createdAt : ℕ

instance : Keyed BannerImpression Key := ⟨(·.id), fun i => [i.key]⟩

structure Store where
  clock : ℕ
  banners : Table Banner
  impressions : Table BannerImpression

/-- What a session is about to count, and when it looked for it, and what it read to drop. -/
structure Memory where
  asked : Option (Key × ℕ)
  doomed : List ℕ
  before : ℕ

def Memory.empty : Memory := ⟨none, [], 0⟩

inductive Fault where
  | notFound
  /-- A signed value that cannot be read. -/
  | unreadable
  /-- The bound on the pages of one call is spent. -/
  | recursion
  deriving DecidableEq

abbrev Db := Program Memory Store Fault

/-- Another statement of the session, before which others run. -/
def pass : Db Unit := yield id

def reachesTenant (column tenantId : Option ℕ) : Bool := column == tenantId || column.isNone

def findByUuid (uuid : String) (tenantId : Option ℕ) (s : Store) : Option Banner :=
  s.banners.find (fun b => b.uuid == uuid && reachesTenant b.tenantId tenantId)

/-- `now().date()` -/
def dateOf (moment : ℕ) : ℕ := moment / Calendar.day

/-- The row `insert_or_read` adds, refused where another one has its key or its banner is gone. -/
def insertImpression (key : Key) (s : Store) : Option (BannerImpression × Table BannerImpression) :=
  if (s.banners.get key.bannerId).isNone then none
  else s.impressions.insert (fun id => ⟨id, key, s.clock⟩)

/-- `column + 1`, of the column of a kind. -/
def Banner.raised (kind : BannerCountKind) (b : Banner) : Banner :=
  match kind with
  | .view => { b with views := b.views + 1 }
  | .click => { b with clicks := b.clicks + 1 }

theorem still_raised (kind : BannerCountKind) : Still (Banner.raised kind) := by
  intro b
  cases kind <;> exact ⟨rfl, rfl⟩

/-- The row is looked for, and written where it is not there. Whoever finds it, or meets it as it
writes its own, moves no total. -/
def count (banner : Banner) (kind : BannerCountKind) (visitor : String) : Db Bool := do
  let today ← query (fun s => dateOf s.clock)
  let key : Key := ⟨banner.id, kind, visitor, today⟩
  match ← query (·.impressions.find (·.key == key)) with
  | some _ => pure false
  | none =>
    let moment ← query (·.clock)
    remember (fun m => { m with asked := some (key, moment) })
    pass
    match ← query (insertImpression key) with
    | none => pure false
    | some (_, t) =>
      execute (fun s => { s with
        impressions := t
        banners := s.banners.modify (·.id == banner.id) (Banner.raised kind) (still_raised kind) })
      pure true

/-- What a request says of who sent it, at a moment:
`visitor.counted(request) or visitor.named(body.visitor)`. -/
abbrev Named := ℕ → Except Fault (Option String)

/-- A view or a click, by the name a request is counted by. -/
def settleCount (brand : Option ℕ) (uuid : String) (who : Named) (kind : BannerCountKind) :
    Db Unit := do
  let banner ← require .notFound (← query (findByUuid uuid brand))
  match ← query (fun s => who s.clock) with
  | .error e => raise e
  | .ok none => pure ()
  | .ok (some visitor) =>
    pass
    let _ ← count banner kind visitor
    remember (fun m => { m with asked := none })
    publish

def deleteBanner (id : ℕ) : Db Unit := do
  execute (fun s => { s with
    banners := s.banners.erase (·.id == id)
    impressions := s.impressions.erase (·.key.bannerId == id) })
  publish

/-- The table of the impressions. -/
def shelf : Retention.Shelf Store BannerImpression where
  rows := (·.impressions)
  write := fun t s => { s with impressions := t }
  rows_write := fun _ _ => rfl
  write_write := fun _ _ _ => rfl
  write_rows := fun _ => rfl

/-- What a session reads to drop, with the moment it drops from. -/
def note (before : ℕ) (ids : List ℕ) (m : Memory) : Memory := { m with doomed := ids, before := before }

/-- What retention does with the impressions, where their window is `days`. -/
def discard (days size pages : ℕ) : Db ℕ := do
  if 0 < days then
    let moment ← query (·.clock)
    let before := moment - days * Calendar.day
    Retention.trimWhere shelf (note before) .recursion (·.createdAt < before) size pages
  else pure 0

inductive Call where
  | settleCount (brand : Option ℕ) (uuid : String) (who : Named) (kind : BannerCountKind)
  | deleteBanner (id : ℕ)
  | discard (days size pages : ℕ)
  /-- Time passing. -/
  | tick (by' : ℕ)

def Call.serve : Call → Db Unit
  | .settleCount brand uuid who kind => Banners.settleCount brand uuid who kind
  | .deleteBanner id => Banners.deleteBanner id
  | .discard days size pages => do
    let _ ← Banners.discard days size pages
    pure ()
  | .tick by' => do
    execute (fun s => { s with clock := s.clock + by' })
    publish

abbrev Sessions := Pool Memory Store Fault (Unit × Memory)

/-- A session for each call, none of which ran yet. -/
def sessions (calls : List Call) (s : Store) : Sessions :=
  ⟨s, calls.map (fun c => session c.serve Memory.empty s)⟩

end FastKit.Banners
