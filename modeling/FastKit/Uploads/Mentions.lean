import FastKit.Transaction.Contract
import FastKit.Transaction.Table
import FastKit.Uploads.Names
import Mathlib.Data.List.ReduceOption

/-! # What a row names

Every stored file is written down under its UUID and its key, and every row that names one is
written down beside it. A save writes the row, what it names now, and commits both at once.
-/

namespace FastKit.Uploads
open Text Transaction Transaction.Program

/-- A file as it was written down: its UUID is one its key carries. -/
structure StoredFile where
  id : ℕ
  uuid : List Char
  key : List Char
  claimedAt : Option ℕ
  named : uuid ∈ uuidsIn key

abbrev Owner := String × ℕ

structure StoredFileMention where
  id : ℕ
  storedFileId : ℕ
  owner : Owner

/-- A row of a resource: what its columns hold. -/
structure Record where
  id : ℕ
  columns : String → Option (List Char)

instance : Keyed StoredFile (List Char) where
  id := StoredFile.id
  keys := fun f => [f.uuid]

instance : Keyed StoredFileMention (ℕ × Owner) where
  id := StoredFileMention.id
  keys := fun m => [(m.storedFileId, m.owner)]

instance : Keyed Record Unit where
  id := Record.id
  keys := fun _ => []

structure Media where
  clock : ℕ
  files : Table StoredFile
  mentions : Table StoredFileMention
  records : Table Record

inductive Refusal where
  | conflict (code : String)
  | validation (code field : String)
  | notFound
  deriving DecidableEq

abbrev Db := Program Unit Media Refusal

/-- What a request gives a row, by the names of the columns. -/
abbrev Payload := List (String × Option (List Char))

/-- What a module declares of its rows: the file columns with the folders of their purposes, the
columns of markup, and its own checks of a write. -/
structure Resource where
  table : String
  fileFields : List (String × List Char)
  markupFields : List String
  /-- Whether what a payload points at is reachable, and what points at the row still reaches. -/
  reachable : Media → Payload → Option Record → Except Refusal Unit
  validate : Media → Payload → Option Record → Except Refusal Unit
  prepare : Payload → Option Record → Except Refusal Payload
  /-- Whether the table takes a row in. -/
  admits : Record → Media → Bool

def checked {α : Type} : Except Refusal α → Db α
  | .ok a => pure a
  | .error e => raise e

/-- Which stored files a set of values names. -/
def namedIn (values : List (Option (List Char))) : List (List Char) :=
  values.reduceOption.flatMap uuidsIn

/-- Whether a key stays where it claims to be. -/
def settledKey (key : List Char) : Bool :=
  !decide (['.', '.'] <:+: key) && !key.contains '\\' && !decide (['/'] <+: key) &&
    !decide (['/', '/'] <:+: key)

namespace Resource
variable (R : Resource)

/-- The columns a stored file can be named in. -/
def mentions : List String := R.fileFields.map Prod.fst ++ R.markupFields

/-- The storage keys the file columns of a row hold. -/
def keysOf (row : Record) : List (List Char) :=
  (R.fileFields.map (fun field => row.columns field.1)).reduceOption.filter (· ≠ [])

def mentioned (row : Record) : List (List Char) := namedIn (R.mentions.map row.columns)

def ownerOf (row : Record) : Owner := (R.table, row.id)

end Resource

def ensureFilesAreOfTheirPurpose (data : Payload) : List (String × List Char) → Except Refusal Unit
  | [] => .ok ()
  | (name, folder) :: rest =>
    let key := ((data.lookup name).getD none).getD []
    if key = [] then ensureFilesAreOfTheirPurpose data rest
    else if decide (folder ++ ['/'] <+: key) && settledKey key then
      ensureFilesAreOfTheirPurpose data rest
    else .error (.validation "error.upload-key-out-of-purpose" name)

/-- The files an owner names, each with the row it is written down in. -/
def heldBy (owner : Owner) (s : Media) : List (List Char × ℕ) :=
  s.mentions.rows.filterMap (fun m =>
    if m.owner = owner then (s.files.get m.storedFileId).map (·.uuid, m.id) else none)

/-- The stamp a file has from being named. -/
def StoredFile.claim (moment : ℕ) (f : StoredFile) : StoredFile :=
  { f with claimedAt := some moment }

theorem still_claim (moment : ℕ) : Still (StoredFile.claim moment) := fun _ => ⟨rfl, rfl⟩

def mentionOf (storedFileId : ℕ) (owner : Owner) (m : StoredFileMention) : Bool :=
  m.storedFileId == storedFileId && m.owner == owner

/-- The mention of a file, whoever wrote it, which a file that is gone has none of. -/
def insertOrRead (storedFileId : ℕ) (owner : Owner) : Db (Option StoredFileMention) := do
  match ← query (·.mentions.find (mentionOf storedFileId owner)) with
  | some written => pure (some written)
  | none =>
    match ← query (fun s => (s.files.get storedFileId).bind
        (fun _ => s.mentions.insert (⟨·, storedFileId, owner⟩))) with
    | some (written, t) =>
      execute (fun s => { s with mentions := t })
      pure (some written)
    | none => query (·.mentions.find (mentionOf storedFileId owner))

def mentionEach (owner : Owner) : List ℕ → Db Unit
  | [] => pure ()
  | storedFileId :: rest => do
    match ← insertOrRead storedFileId owner with
    | some _ => mentionEach owner rest
    | none => raise (.conflict "error.file-gone")

/-- Writes which stored files a row names now, and answers the ones it stopped naming. -/
def mention (owner : Owner) (values : List (List Char)) (keys : List (List Char)) :
    Db (List (List Char)) := do
  let named := namedIn (values.map some)
  let held ← query (heldBy owner)
  let dropped := (held.map Prod.fst).filter (· ∉ named)
  let added := named.filter (· ∉ held.map Prod.fst)
  execute (fun s => { s with
    mentions := s.mentions.erase (fun m => held.any (fun h => h.2 == m.id && h.1 ∉ named)) })
  if added = [] then pure dropped
  else
    -- the stamp moves on every new name
    execute (fun s => { s with
      files := s.files.modify (·.uuid ∈ added) (StoredFile.claim s.clock) (still_claim s.clock) })
    let found ← query (fun s => (s.files.select (·.uuid ∈ added)).map (·.id))
    -- only a key that carries a UUID named anew is compared with the keys that are stored
    let fresh := keys.filter (fun key => (uuidsIn key).any (· ∈ added))
    if (← query (fun s => fresh.all (fun key => s.files.rows.any (·.key == key)))) then
      mentionEach owner found
      pure dropped
    else raise (.conflict "error.file-gone")

/-- The store without those of some files that nothing mentions. -/
def discarded (uuids : List (List Char)) (s : Media) : Media :=
  { s with
    files := s.files.erase (fun f => f.uuid ∈ uuids &&
      !s.mentions.rows.any (·.storedFileId == f.id)) }

/-- Discards the files a row stopped naming, unless another row still names them. -/
def release (values : List (List Char)) : Db Unit := do
  let uuids := namedIn (values.map some)
  if uuids = [] then pure ()
  else
    execute (discarded uuids)
    publish

/-- The columns of a row as a payload leaves them. -/
def written (data : Payload) (columns : String → Option (List Char)) :
    String → Option (List Char) :=
  fun name => (data.lookup name).getD (columns name)

def Record.edited (data : Payload) (row : Record) : Record := ⟨row.id, written data row.columns⟩

theorem still_edited (data : Payload) : Still (Record.edited data) := fun _ => ⟨rfl, rfl⟩

/-- The checks of a write, and the payload as it is written. -/
def Resource.prepared (R : Resource) (data : Payload) (row : Option Record) : Db Payload := do
  let s ← query id
  checked (R.reachable s data row)
  checked (ensureFilesAreOfTheirPurpose data R.fileFields)
  checked (R.validate s data row)
  checked (R.prepare data row)

def create (R : Resource) (data : Payload) : Db Record := do
  let prepared ← R.prepared data none
  match ← query (fun s => (s.records.insert (⟨·, written prepared (fun _ => none)⟩)).filter
      (fun inserted => R.admits inserted.1 s)) with
  | none => raise (.conflict "error.duplicated-record")
  | some (row, t) =>
    execute (fun s => { s with records := t })
    let _ ← mention (R.ownerOf row) (R.mentioned row) (R.keysOf row)
    publish
    pure row

def update (R : Resource) (id : ℕ) (data : Payload) : Db Record := do
  let instance' ← require .notFound (← query (·.records.get id))
  let prepared ← R.prepared data (some instance')
  let row := instance'.edited prepared
  if !(← query (R.admits row)) then raise (.conflict "error.duplicated-record")
  else
    execute (fun s => { s with
      records := s.records.modify (·.id == id) (Record.edited prepared) (still_edited prepared) })
    let dropped ← mention (R.ownerOf row) (R.mentioned row) (R.keysOf row)
    publish
    release ((R.mentioned instance').filter (· ∉ R.mentioned row) ++ dropped)
    pure row

end FastKit.Uploads
