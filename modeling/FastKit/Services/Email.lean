import FastKit.Models.Store
import FastKit.Transaction.Pool

/-! # The email service

A message is written down first and dialled out later. A pass lists what waits, and takes,
dials and writes down one message after the other; a message claimed by a node that is gone
is handed back or closed by the job. The store here is what the service reads and writes.
-/

namespace FastKit.Email
open Transaction Transaction.Program

def maxAttempts : ℕ := 5

def batch : ℕ := 50

/-- A row still claimed after this belonged to a process that is gone. -/
def abandonedAfter : ℕ := 30 * 60 * Calendar.second

/-- `PASS_SECONDS`, less the seconds of one whole send. -/
def passTime : ℕ := (110 - 2 * 15) * Calendar.second

inductive OutboundEmailStatus where
  | pending | sending | sent | failed | refused
  deriving DecidableEq, Repr

/-- What nothing is dialled for anymore. -/
def OutboundEmailStatus.closed : OutboundEmailStatus → Bool
  | .sent | .failed | .refused => true
  | _ => false

structure OutboundEmail where
  id : ℕ
  tenantId : Option ℕ
  toAddress : String
  replyTo : Option String
  subject : String
  template : String
  locale : String
  context : List (String × String)
  status : OutboundEmailStatus
  attempts : ℕ
  errorCode : Option String
  errorMessage : Option String
  sentAt : Option ℕ
  createdAt : ℕ
  updatedAt : ℕ
  deriving DecidableEq

instance : Keyed OutboundEmail Empty := ⟨(·.id), fun _ => []⟩

structure SuppressedAddress where
  id : ℕ
  address : String
  reason : String

instance : Keyed SuppressedAddress String := ⟨(·.id), fun a => [a.address]⟩

structure LogEntry where
  tenantId : Option ℕ
  level : LogLevel
  description : String
  outboundEmailId : ℕ
  error : String

structure Store where
  clock : ℕ
  emails : Table OutboundEmail
  suppressed : Table SuppressedAddress
  logs : List LogEntry

/-- A message a sender took: which, when, and for which attempt. -/
structure Hold where
  message : ℕ
  moment : ℕ
  attempt : ℕ
  deriving DecidableEq

/-- What a session has in hand, and the message as it loaded it. -/
structure Memory where
  held : Option Hold
  record : Option OutboundEmail

def Memory.empty : Memory := ⟨none, none⟩

abbrev Db := Program Memory Store Fault

inductive SendError where
  | addressRefused (text : String)
  | other (name text : String)

def SendError.name : SendError → String
  | .addressRefused _ => "AddressRefused"
  | .other name _ => name

def SendError.text : SendError → String
  | .addressRefused text | .other _ text => text

/-- What answers for a node while it sends: the mail server, and whether the database
takes what becomes of the message. -/
structure Relay where
  deliver : OutboundEmail → Except SendError Unit
  refuses : OutboundEmail → Bool

def now : Db ℕ := query (·.clock)

/-- Writes the rows of the queue where they stand. -/
def writeEmails (p : OutboundEmail → Bool) (f : OutboundEmail → OutboundEmail) (h : Still f) :
    Db Unit :=
  execute (fun s => { s with emails := s.emails.modify p f h })

/-- Another statement of the session, before which others run. -/
def pass : Db Unit := yield id

def suppressed (address : String) (s : Store) : Bool :=
  (s.suppressed.find (·.address == address)).isSome

/-- Writes a message down, as refused where a server refused its address already. -/
def queue (tenantId : Option ℕ) (address subject template : String) (replyTo : Option String)
    (locale : String) (context : List (String × String)) : Db OutboundEmail := do
  let refused ← query (suppressed address)
  pass
  let moment ← now
  let (record, t) ← require .integrity (← query (·.emails.insert (fun id => {
    id := id
    tenantId := tenantId
    toAddress := address
    replyTo := replyTo
    subject := subject
    template := template
    locale := locale
    context := context
    status := if refused then .refused else .pending
    attempts := 0
    errorCode := if refused then some "SuppressedAddress" else none
    errorMessage := none
    sentAt := none
    createdAt := moment
    updatedAt := moment })))
  execute (fun s => { s with emails := t })
  publish
  pure record

/-- Takes a message for this caller to send, and answers whether it was the one that got it. -/
def claim (recordId : ℕ) : Db Bool := do
  let moment ← now
  match ← query (·.emails.get recordId) with
  | some row =>
    if row.status = .pending then
      writeEmails (·.id == recordId)
        (fun r => { r with status := .sending, attempts := r.attempts + 1, updatedAt := moment })
        (fun _ => ⟨rfl, rfl⟩)
      remember (fun _ => ⟨some ⟨recordId, moment, row.attempts + 1⟩, none⟩)
      publish
      pure true
    else
      publish
      pure false
  | none =>
    publish
    pure false

/-- The attributes of a row a flush writes: those whose copy changed since it was loaded. -/
def OutboundEmail.write (loaded now : OutboundEmail) (moment : ℕ) (row : OutboundEmail) :
    OutboundEmail :=
  { row with
    status := changed loaded.status now.status row.status
    errorCode := changed loaded.errorCode now.errorCode row.errorCode
    errorMessage := changed loaded.errorMessage now.errorMessage row.errorMessage
    sentAt := changed loaded.sentAt now.sentAt row.sentAt
    updatedAt := if now = loaded then row.updatedAt else moment }

/-- Writes a copy over its row. -/
def flush (loaded now : OutboundEmail) : Db Unit := do
  let moment ← Email.now
  writeEmails (·.id == loaded.id) (OutboundEmail.write loaded now moment) (fun _ => ⟨rfl, rfl⟩)

def suppress (address reason : String) : Db Unit := do
  match ← query (·.suppressed.find (·.address == address)) with
  | some _ => pure ()
  | none =>
    match ← query (·.suppressed.insert (fun id => ⟨id, address, (reason.take 255).toString⟩)) with
    | some (_, t) => execute (fun s => { s with suppressed := t })
    | none => pure ()

def record (tenantId : Option ℕ) (level : LogLevel) (description : String) (outboundEmailId : ℕ)
    (error : String) : Db Unit :=
  execute (fun s => { s with logs := s.logs ++ [⟨tenantId, level, description, outboundEmailId, error⟩] })

/-- The message as a failed delivery leaves the copy of it. -/
def failed (record : OutboundEmail) (error : SendError) : OutboundEmail :=
  match error with
  | .addressRefused text => { record with
      status := .refused
      errorCode := some error.name
      errorMessage := some text }
  | .other name text => { record with
      status := if maxAttempts ≤ record.attempts then .failed else .pending
      errorCode := some name
      errorMessage := some text }

/-- A template nobody wrote is a configuration to fix, and the server answers the request
either way. What it writes is committed with the log entry. -/
def fail (record : OutboundEmail) (error : SendError) : Db Unit := do
  flush record (failed record error)
  match error with
  | .addressRefused text =>
    suppress record.toAddress text
    Email.record record.tenantId .warning
      (record.toAddress ++ " was refused for good and stops receiving") record.id text
  | .other name text =>
    Email.record record.tenantId .error
      ("email " ++ record.template ++ " to " ++ record.toAddress ++ " failed: " ++ name) record.id text

/-- How the message ended, written on the row that was claimed for it. Where the database
refuses the write, the reclaim is what brings the message back. -/
def writeDown (relay : Relay) (error : Option SendError) : Db Bool := do
  let record ← require .attributeError (← remembered (·.record))
  remember (fun _ => Memory.empty)
  if relay.refuses record then
    publish
    pure false
  else
    match error with
    | some error =>
      fail record error
      publish
      pure false
    | none =>
      let moment ← now
      flush record { record with
        status := .sent
        sentAt := some moment
        errorCode := none
        errorMessage := none }
      publish
      pure true

/-- One message, dialled once and written down after. -/
def settle (relay : Relay) (recordId : ℕ) : Db Bool := do
  let record ← require .attributeError (← query (·.emails.get recordId))
  remember (fun m => { m with record := some record })
  pass
  match relay.deliver record with
  | .error error => writeDown relay (some error)
  | .ok () => writeDown relay none

/-- The messages of a pass, until one more whole send does not fit inside it. -/
def processEach (relay : Relay) (deadline : ℕ) : List ℕ → Db (List ℕ)
  | [] => pure []
  | id :: rest => do
    if deadline ≤ (← now) then pure []
    else if !(← claim id) then processEach relay deadline rest
    else
      let settled ← settle relay id
      let sent ← processEach relay deadline rest
      pure (if settled then id :: sent else sent)

/-- What a pass reads, the oldest first. -/
def pendingIds (s : Store) : List ℕ :=
  (((s.emails.select (fun m => m.status == .pending && m.attempts < maxAttempts)).insertionSort
    (fun a b => a.createdAt ≤ b.createdAt)).take batch).map (·.id)

def processPending (relay : Relay) : Db (List ℕ) := do
  let deadline := (← now) + passTime
  let ids ← query pendingIds
  pass
  processEach relay deadline ids

/-- Still claimed by a node that is gone. -/
def stranded (moment : ℕ) (m : OutboundEmail) : Bool :=
  m.status == .sending && m.updatedAt + abandonedAfter < moment

/-- What becomes of a message a node left claimed: it is closed where its attempts ran out,
and waits again otherwise. -/
def reclaimed (moment : ℕ) (m : OutboundEmail) : OutboundEmail :=
  if maxAttempts ≤ m.attempts then
    { m with
      status := .failed
      errorCode := some "abandoned"
      errorMessage := some "the last attempt never finished"
      updatedAt := moment }
  else { m with status := .pending, updatedAt := moment }

theorem still_reclaimed (moment : ℕ) : Still (reclaimed moment) := by
  intro m
  unfold reclaimed
  split_ifs <;> exact ⟨rfl, rfl⟩

/-- What a node that died left claimed, handed back to the queue. The two statements are of
one commit and meet different rows. -/
def reclaimAbandoned : Db ℕ := do
  let moment ← now
  let count ← query (fun s =>
    (s.emails.select (fun m => stranded moment m && m.attempts < maxAttempts)).length)
  writeEmails (stranded moment) (reclaimed moment) (still_reclaimed moment)
  publish
  pure count

inductive Call where
  | queue (tenantId : Option ℕ) (address subject template : String) (replyTo : Option String)
      (locale : String) (context : List (String × String))
  | processPending (relay : Relay)
  | reclaimAbandoned
  /-- `send_pending_emails`, which reclaims before it sends. -/
  | sendPendingEmails (relay : Relay)
  /-- Time passing. -/
  | tick (by' : ℕ)

def Call.serve : Call → Db Unit
  | .queue tenantId address subject template replyTo locale context => do
    let _ ← Email.queue tenantId address subject template replyTo locale context
  | .processPending relay => do let _ ← Email.processPending relay
  | .reclaimAbandoned => do let _ ← Email.reclaimAbandoned
  | .sendPendingEmails relay => do
    let _ ← Email.reclaimAbandoned
    let _ ← Email.processPending relay
  | .tick by' => do
    execute (fun s => { s with clock := s.clock + by' })
    publish

abbrev Sessions := Pool Memory Store Fault (Unit × Memory)

/-- A session for each call, none of which ran yet. -/
def sessions (calls : List Call) (s : Store) : Sessions :=
  ⟨s, calls.map (fun c => session c.serve Memory.empty s)⟩

end FastKit.Email
