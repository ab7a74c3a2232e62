import FastKit.Services.Delivery
import FastKit.Services.Retention
import FastKit.Text.Json
import FastKit.Transaction.Leases

/-! # The app event service

What an app reports is stored once for its uuid and read by a pass later. A pass takes one event
after the other, records the ones this side knows what to do with, and closes the others;
retention drops what was closed. The store here is what the service reads and writes.
-/

namespace FastKit.Events
open Transaction Transaction.Program Text

def maxAttempts : ℕ := 5

def batch : ℕ := 200

inductive AppEventStatus where
  | pending | processing | processed | ignored | failed
  deriving DecidableEq, Repr

/-- Where an entry of the system log came from. -/
inductive LogCategory where
  | cron | admin | account | purchase | content
  deriving DecidableEq, Repr

def eventCategories : List (String × LogCategory) :=
  [("checkout-started", .purchase), ("product-purchased", .purchase),
    ("content-viewed", .content), ("gallery-viewed", .content)]

structure AppEvent where
  id : ℕ
  tenantId : Option ℕ
  userId : Option ℕ
  uuid : String
  name : String
  params : Json
  occurredAt : ℕ
  status : AppEventStatus
  attempts : ℕ
  errorCode : Option String
  errorMessage : Option String
  processedAt : Option ℕ
  createdAt : ℕ
  updatedAt : ℕ

/-- `app_event_uuid` -/
instance : Keyed AppEvent String := ⟨(·.id), fun e => [e.uuid]⟩

/-- What an app says of one event. -/
structure Reported where
  uuid : String
  name : String
  params : Json
  occurredAt : ℕ

structure LogEntry where
  tenantId : Option ℕ
  userId : Option ℕ
  level : LogLevel
  category : LogCategory
  description : String
  params : Json

structure Store where
  clock : ℕ
  events : Table AppEvent
  logs : List LogEntry

/-- The event a session took, the event as it loaded it, the uuids it found stored, the rows it
stored once it did, and the ids it read to drop with the moment it drops from. -/
structure Memory where
  held : Option Lease
  record : Option AppEvent
  known : List String
  written : Option (List AppEvent)
  doomed : List ℕ
  before : ℕ

def Memory.empty : Memory := ⟨none, none, [], none, [], 0⟩

inductive Fault where
  /-- A row that was loaded is gone. -/
  | staleData
  | raised (name text : String)
  /-- The bound on the pages of one call is spent. -/
  | recursion
  deriving DecidableEq

/-- `type(error).__name__` -/
def Fault.name : Fault → String
  | .staleData => "StaleDataError"
  | .raised name _ => name
  | .recursion => "RecursionError"

def Fault.text : Fault → String
  | .raised _ text => text
  | _ => ""

abbrev Db := Program Memory Store Fault

def now : Db ℕ := query (·.clock)

/-- Writes the rows of the queue where they stand. -/
def writeEvents (p : AppEvent → Bool) (f : AppEvent → AppEvent) (h : Still f) : Db Unit :=
  execute (fun s => { s with events := s.events.modify p f h })

/-- Another statement of the session, before which others run. -/
def pass : Db Unit := yield id

/-- `incoming[event["uuid"]] = event` -/
def put (incoming : List Reported) (event : Reported) : List Reported :=
  if incoming.any (·.uuid == event.uuid) then
    incoming.map (fun e => if e.uuid == event.uuid then event else e)
  else incoming ++ [event]

/-- A batch by its uuids: each stands where it came first, as it came last. -/
def incoming (events : List Reported) : List Reported := events.foldl put []

def knownUuids (uuids : List String) (s : Store) : List String :=
  (s.events.select (fun e => uuids.contains e.uuid)).map (·.uuid)

def pendingEvent (brand user : Option ℕ) (moment : ℕ) (event : Reported) (id : ℕ) : AppEvent where
  id := id
  tenantId := brand
  userId := user
  uuid := event.uuid
  name := event.name
  params := event.params
  occurredAt := event.occurredAt
  status := .pending
  attempts := 0
  errorCode := none
  errorMessage := none
  processedAt := none
  createdAt := moment
  updatedAt := moment

/-- `insert_or_read`, which answers the row only where this call wrote it. -/
def insertOrRead (brand user : Option ℕ) (event : Reported) : Db (Option AppEvent) := do
  match ← query (·.events.find (·.uuid == event.uuid)) with
  | some _ => pure none
  | none =>
    let moment ← now
    match ← query (·.events.insert (pendingEvent brand user moment event)) with
    | some (record, t) =>
      execute (fun s => { s with events := t })
      pure (some record)
    | none => pure none

/-- The rows a batch wrote. What one call writes is written under the keys it holds until it
commits, so nobody else runs between two events of it. A lock that is not got and a brand or a
user that is gone, which would refuse a row, are left out. -/
def ingestEach (brand user : Option ℕ) (known : List String) : List Reported → Db (List AppEvent)
  | [] => pure []
  | event :: rest => do
    if known.contains event.uuid then ingestEach brand user known rest
    else
      let record ← insertOrRead brand user event
      let written ← ingestEach brand user known rest
      pure (record.toList ++ written)

/-- How many events of a batch were accepted, and how many were there already. -/
def ingest (brand user : Option ℕ) (events : List Reported) : Db (ℕ × ℕ) := do
  let incoming := Events.incoming events
  let known ← query (knownUuids (incoming.map (·.uuid)))
  remember (fun m => { m with known := known })
  pass
  let written ← ingestEach brand user known incoming
  remember (fun m => { m with written := some written })
  publish
  pure (written.length, incoming.length - written.length)

/-- Still claimed by a node that is gone. -/
def abandoned (moment : ℕ) (e : AppEvent) : Bool :=
  e.status == .processing && e.updatedAt + abandonedAfter < moment

/-- What a pass may take: what waits, what broke, and what was left behind. -/
def takeable (moment : ℕ) (e : AppEvent) : Bool :=
  (e.status == .pending || e.status == .failed || abandoned moment e) && e.attempts < maxAttempts

/-- The event as the pass that takes it writes it. -/
def taken (moment : ℕ) (e : AppEvent) : AppEvent :=
  { e with status := .processing, attempts := e.attempts + 1, updatedAt := moment }

theorem still_taken (moment : ℕ) : Still (taken moment) := fun _ => ⟨rfl, rfl⟩

/-- Takes an event for this pass, and answers whether it was the one that got it. -/
def claim (recordId : ℕ) : Db Bool := do
  let moment ← now
  let rowcount ← query (fun s => (s.events.select (fun e => e.id == recordId && takeable moment e)).length)
  writeEvents (fun e => e.id == recordId && takeable moment e) (taken moment) (still_taken _)
  if rowcount = 1 then remember (fun m => { m with held := some ⟨recordId, moment⟩, record := none })
  publish
  pure (rowcount == 1)

/-- Abandoned, with no attempt left. -/
def exhausted (moment : ℕ) (e : AppEvent) : Bool := abandoned moment e && maxAttempts ≤ e.attempts

def closedExhausted (moment : ℕ) (e : AppEvent) : AppEvent :=
  { e with
    status := .failed
    errorCode := some "abandoned"
    errorMessage := some "the last attempt never finished"
    updatedAt := moment }

theorem still_closedExhausted (moment : ℕ) : Still (closedExhausted moment) := fun _ => ⟨rfl, rfl⟩

/-- An event whose last attempt died with the node reading it is closed as failed. -/
def closeExhausted : Db ℕ := do
  let moment ← now
  let closed ← query (fun s => (s.events.select (exhausted moment)).length)
  writeEvents (exhausted moment) (closedExhausted moment) (still_closedExhausted _)
  publish
  pure closed

def entryOf (category : LogCategory) (event : AppEvent) : LogEntry :=
  ⟨event.tenantId, event.userId, .info, category, event.name, event.params⟩

/-- Answers whether anything on this side read the event. -/
def dispatch (event : AppEvent) : Db Bool :=
  match eventCategories.lookup event.name with
  | none => pure false
  | some category => do
    execute (fun s => { s with logs := s.logs ++ [entryOf category event] })
    pure true

/-- What a pass writes of an event it loaded. -/
def AppEvent.progress (e : AppEvent) : AppEventStatus × Option String × Option String × Option ℕ :=
  (e.status, e.errorCode, e.errorMessage, e.processedAt)

/-- The attributes of a row a flush writes: those whose copy changed since it was loaded. -/
def AppEvent.write (loaded now : AppEvent) (moment : ℕ) (row : AppEvent) : AppEvent :=
  { row with
    status := changed loaded.status now.status row.status
    errorCode := changed loaded.errorCode now.errorCode row.errorCode
    errorMessage := changed loaded.errorMessage now.errorMessage row.errorMessage
    processedAt := changed loaded.processedAt now.processedAt row.processedAt
    updatedAt := if now.progress = loaded.progress then row.updatedAt else moment }

theorem still_write (loaded now : AppEvent) (moment : ℕ) : Still (AppEvent.write loaded now moment) :=
  fun _ => ⟨rfl, rfl⟩

/-- Writes a copy over its row, which has to be there. -/
def flush (loaded now : AppEvent) : Db Unit := do
  let moment ← Events.now
  let _ ← require .staleData (← query (·.events.get loaded.id))
  writeEvents (·.id == loaded.id) (AppEvent.write loaded now moment) (still_write _ _ _)

/-- What the dispatch of an event or the database raised, where it did. -/
abbrev Desk := AppEvent → Option (String × String)

def settledEvent (read : Bool) (moment : ℕ) (event : AppEvent) : AppEvent :=
  { event with
    status := if read then .processed else .ignored
    errorCode := none
    errorMessage := none
    processedAt := some moment }

def brokenEvent (error : Fault) (moment : ℕ) (event : AppEvent) : AppEvent :=
  { event with
    status := .failed
    errorCode := some error.name
    errorMessage := some error.text
    processedAt := some moment }

def release (m : Memory) : Memory := { m with held := none, record := none }

/-- The event is recorded or passed over, and committed with its status. -/
def readEvent (desk : Desk) (event : AppEvent) : Db (Option ℕ) := do
  let read ← dispatch event
  let moment ← now
  flush event (settledEvent read moment event)
  match desk event with
  | some (name, text) => raise (.raised name text)
  | none =>
    remember release
    publish
    pure (some event.id)

/-- What broke is written down on the row as it stands, where there is one. -/
def writeFailure (recordId : ℕ) (error : Fault) : Db (Option ℕ) := do
  revert
  match ← query (·.events.get recordId) with
  | none =>
    remember release
    pass
    pure none
  | some event =>
    remember (fun m => { m with record := some event })
    pass
    let moment ← now
    flush event (brokenEvent error moment event)
    remember release
    publish
    pure (some recordId)

/-- One event, read once and closed. -/
def settle (desk : Desk) (recordId : ℕ) : Db (Option ℕ) := do
  match ← query (·.events.get recordId) with
  | none =>
    remember release
    pass
    pure none
  | some event =>
    remember (fun m => { m with record := some event })
    pass
    attempt (readEvent desk event) (writeFailure recordId)

/-- The events of a pass, one after the other. -/
def processEach (desk : Desk) : List ℕ → Db (List ℕ)
  | [] => pure []
  | id :: rest => do
    if !(← claim id) then processEach desk rest
    else
      let settled ← settle desk id
      let worked ← processEach desk rest
      pure (settled.toList ++ worked)

/-- What a pass reads, in the order of the ids. -/
def waitingIds (moment : ℕ) (s : Store) : List ℕ :=
  (((s.events.select (takeable moment)).insertionSort (fun a b => a.id ≤ b.id)).take batch).map (·.id)

def processPending (desk : Desk) : Db (List ℕ) := do
  let moment ← now
  let ids ← query (waitingIds moment)
  pass
  processEach desk ids

/-- What retention lets go of: what was closed for good, and is older than the window. -/
def settled (before : ℕ) (e : AppEvent) : Bool :=
  e.createdAt < before && (e.status == .processed || e.status == .ignored ||
    (e.status == .failed && maxAttempts ≤ e.attempts))

/-- The table of the events. -/
def shelf : Retention.Shelf Store AppEvent where
  rows := (·.events)
  write := fun t s => { s with events := t }
  rows_write := fun _ _ => rfl
  write_write := fun _ _ _ => rfl
  write_rows := fun _ => rfl

/-- What a session reads to drop, with the moment it drops from. -/
def note (before : ℕ) (ids : List ℕ) (m : Memory) : Memory := { m with doomed := ids, before := before }

/-- What retention does with the events, where their window is `days`. -/
def discard (days size pages : ℕ) : Db ℕ := do
  if 0 < days then
    let moment ← now
    let before := moment - days * Calendar.day
    Retention.trimWhere shelf (note before) .recursion (settled before) size pages
  else pure 0

inductive Call where
  | ingest (brand user : Option ℕ) (events : List Reported)
  | closeExhausted
  | processPending (desk : Desk)
  /-- `process_pending_events`, which closes what is exhausted before it reads. -/
  | processPendingEvents (desk : Desk)
  | discard (days size pages : ℕ)
  /-- Time passing. -/
  | tick (by' : ℕ)

/-- What a call answers, which is only said of a batch. -/
def Call.serve : Call → Db (Option (ℕ × ℕ))
  | .ingest brand user events => do
    let counted ← Events.ingest brand user events
    pure (some counted)
  | .closeExhausted => do
    let _ ← Events.closeExhausted
    pure none
  | .processPending desk => do
    let _ ← Events.processPending desk
    pure none
  | .processPendingEvents desk => do
    let _ ← Events.closeExhausted
    let _ ← Events.processPending desk
    pure none
  | .discard days size pages => do
    let _ ← Events.discard days size pages
    pure none
  | .tick by' => do
    execute (fun s => { s with clock := s.clock + by' })
    publish
    pure none

abbrev Sessions := Pool Memory Store Fault (Option (ℕ × ℕ) × Memory)

/-- A session for each call, none of which ran yet. -/
def sessions (calls : List Call) (s : Store) : Sessions :=
  ⟨s, calls.map (fun c => session c.serve Memory.empty s)⟩

end FastKit.Events
