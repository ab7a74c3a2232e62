import FastKit.Calendar
import FastKit.Transaction.Pool
import FastKit.Transaction.Table

/-! # Writes a client named

A key is taken before the work starts and answered after it, so that sending a write twice
does the work once. The calls here are `once` of one work each; what the work does to other
tables is left to the caller, and only how it ended comes back.
-/

namespace FastKit.Idempotency
open Transaction Transaction.Program

def abandonedAfter : ℕ := 5 * 60 * Calendar.second

structure ClientRequest where
  id : ℕ
  userId : ℕ
  idempotencyKey : String
  endpoint : String
  answer : Option String
  claimedAt : ℕ
  deriving DecidableEq

/-- What `client_request_key` keeps unique. -/
def ClientRequest.pair (r : ClientRequest) : ℕ × String := (r.userId, r.idempotencyKey)

instance : Keyed ClientRequest (ℕ × String) := ⟨(·.id), fun r => [r.pair]⟩

structure Store where
  clock : ℕ
  requests : Table ClientRequest

/-- A key a call works under: its row, what it names, and when it was taken. -/
structure Hold where
  record : ℕ
  pair : ℕ × String
  moment : ℕ
  deriving DecidableEq

/-- Whether the work of a session fails, what it works under, and its copy of the row. -/
structure Memory where
  fails : Bool
  working : Option Hold
  named : Option ClientRequest

inductive Fault where
  | conflict (code : String)
  | staleData
  | raised (text : String)
  deriving DecidableEq

abbrev Db := Program Memory Store Fault

def now : Db ℕ := query (·.clock)

/-- Writes the rows of the table where they stand. -/
def writeRequests (p : ClientRequest → Bool) (f : ClientRequest → ClientRequest) (h : Still f) :
    Db Unit :=
  execute (fun s => { s with requests := s.requests.modify p f h })

def deleteRequests (p : ClientRequest → Bool) : Db Unit :=
  execute (fun s => { s with requests := s.requests.erase p })

/-- Another statement of the session, before which others run. -/
def pass : Db Unit := yield id

def read (userId : ℕ) (key : String) (s : Store) : Option ClientRequest :=
  s.requests.find (·.pair == (userId, key))

/-- The row that was there, or the one written for the pair, and whether it was written.
There is none where it was given back between a refused insert and the read. -/
def insertOrRead (userId : ℕ) (key endpoint : String) : Db (Option ClientRequest × Bool) := do
  match ← query (read userId key) with
  | some settled => pure (some settled, false)
  | none =>
    pass
    let moment ← now
    match ← query (·.requests.insert (fun id => ⟨id, userId, key, endpoint, none, moment⟩)) with
    | some (instance', t) =>
      execute (fun s => { s with requests := t })
      remember (fun m => ⟨m.fails, some ⟨instance'.id, instance'.pair, moment⟩, some instance'⟩)
      pure (some instance', true)
    | none =>
      pass
      pure (← query (read userId key), false)

/-- A row as the call that took it over leaves it. -/
def tookOver (moment : ℕ) (r : ClientRequest) : ClientRequest := { r with claimedAt := moment }

theorem still_tookOver (moment : ℕ) : Still (tookOver moment) := fun _ => ⟨rfl, rfl⟩

/-- Never answered, and claimed by a call that is gone. -/
def abandoned (moment : ℕ) (r : ClientRequest) : Bool :=
  r.answer.isNone && decide (r.claimedAt + abandonedAfter < moment)

/-- Takes a key the first call never answered on, and says whether this caller got it. -/
def takeOver (named : ClientRequest) : Db Bool := do
  let moment ← now
  let taken ← query (fun s =>
    (s.requests.find (fun r => r.id == named.id && abandoned moment r)).isSome)
  writeRequests (fun r => r.id == named.id && abandoned moment r) (tookOver moment) (still_tookOver _)
  if taken then
    remember (fun m => { m with working := some ⟨named.id, named.pair, moment⟩ })
    publish
    pure true
  else
    publish
    pure false

/-- Takes the key before the work starts, or answers what it was answered with. -/
def claim (userId : ℕ) (key : Option String) (endpoint : String) :
    Db (Option ClientRequest × Option String) :=
  match key with
  | none => pure (none, none)
  | some key =>
    if key = "" then pure (none, none) else do
      let (named, taking) ← insertOrRead userId key endpoint
      if taking then
        publish
        pure (named, none)
      else
        remember (fun m => { m with named := named })
        publish
        match named with
        | none => raise (.conflict "error.idempotency-key-in-flight")
        | some named =>
          if named.endpoint ≠ endpoint then raise (.conflict "error.idempotency-key-reused")
          else
            match named.answer with
            | some answer => pure (some named, some answer)
            | none =>
              if ← takeOver named then pure (some named, none)
              else raise (.conflict "error.idempotency-key-in-flight")

/-- Gives the key back where it was not answered. -/
def giveBack (recordId : Option ℕ) : Db Unit :=
  match recordId with
  | none => pure ()
  | some recordId => do
    revert
    deleteRequests (fun r => r.id == recordId && r.answer.isNone)
    remember (fun m => ⟨m.fails, none, none⟩)
    publish

def answered (answer : String) (r : ClientRequest) : ClientRequest := { r with answer := some answer }

theorem still_answered (answer : String) : Still (answered answer) := fun _ => ⟨rfl, rfl⟩

/-- Writes the answer on the row, which a flush refuses where there is none anymore. -/
def settle (named : Option ClientRequest) (answer : String) : Db Unit :=
  match named with
  | none => pure ()
  | some named => do
    let _ ← require .staleData (← query (·.requests.get named.id))
    writeRequests (·.id == named.id) (answered answer) (still_answered _)
    remember (fun m => ⟨m.fails, none, some (answered answer named)⟩)
    publish

/-- The work runs while the call waits for its turn, and `work` is how it ended. -/
def once (userId : ℕ) (key : Option String) (endpoint : String) (work : Except String String) :
    Db String := do
  let (named, kept) ← claim userId key endpoint
  match kept with
  | some kept => pure kept
  | none =>
    match work with
    | .error text =>
      giveBack (named.map (·.id))
      raise (.raised text)
    | .ok answer =>
      settle named answer
      pure answer

inductive Call where
  | once (userId : ℕ) (key : Option String) (endpoint : String) (work : Except String String)
  /-- Time passing. -/
  | tick (by' : ℕ)

/-- What a call answers. -/
def Call.serve : Call → Db (Option String)
  | .once userId key endpoint work => do
    let answer ← Idempotency.once userId key endpoint work
    pure (some answer)
  | .tick by' => do
    execute (fun s => { s with clock := s.clock + by' })
    publish
    pure none

def Call.fails : Call → Bool
  | .once _ _ _ (.error _) => true
  | _ => false

def idle (fails : Bool) : Memory := ⟨fails, none, none⟩

abbrev Sessions := Pool Memory Store Fault (Option String × Memory)

/-- A session for each call, none of which ran yet. -/
def sessions (calls : List Call) (s : Store) : Sessions :=
  ⟨s, calls.map (fun c => session c.serve (idle c.fails) s)⟩

end FastKit.Idempotency
