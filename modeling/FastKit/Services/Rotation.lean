import FastKit.Catalogue.Picks
import FastKit.Helpers.Security
import Mathlib.Data.String.Basic
import Mathlib.Logic.Relation

/-! # The rewrite that lets a key be replaced

Every model with columns of secrets is walked in batches, in the order of its ids. A row is written
under the condition that its secrets are what was read of them, and all of it is one transaction:
what it wrote is seen by nobody else before it ends, and its rows are changed by nobody else. Between
any two of its statements others change the rows they may.
-/

namespace FastKit.Secrets

open Picks (sortedBy)

/-- A row of a model, by the columns of secrets it has. -/
structure Row where
  id : ℕ
  secrets : String → Option String

/-- The rows of each table. -/
abbrev Database : Type := String → List Row

/-- A class that is mapped, with the keys of its columns. -/
structure Mapper where
  name : String
  table : String
  columns : List String

/-- All classes that are mapped, each to a table of its own. -/
structure Registry where
  mappers : List Mapper
  tables : (mappers.map Mapper.table).Nodup

/-- What a column of stored secrets is called. -/
def suffix : List Char := "_encrypted".toList

def batchSize : ℕ := 1000

/-- The columns of secrets of a class. -/
def Mapper.secrets (mapper : Mapper) : List String :=
  sortedBy id (mapper.columns.filter fun column => suffix <:+ column.toList)

/-- A table and its columns of secrets. -/
abbrev Model : Type := String × List String

/-- Every model that has a secret, in the order of their names. -/
def stored (registry : Registry) : List Model :=
  (sortedBy Mapper.name (registry.mappers.filter fun mapper => mapper.secrets ≠ [])).map
    fun mapper => (mapper.table, mapper.secrets)

inductive Error
  /-- A secret was changed after it was read. -/
  | changed
  /-- A secret that no key opens, by its column. -/
  | unreadable (column : String)
  /-- The database did not carry out a statement, or the task was cancelled. -/
  | failed
  deriving DecidableEq

/-- The columns of a row that are written again, and what is written, each with a draw of its own. -/
def rewriteRow {κ δ : Type} (F : Fernet κ δ) (keys : Keys κ) (draws : String → δ) (row : Row) :
    List String → Except Error (List (String × Option String))
  | [] => .ok []
  | column :: columns =>
    if Blank (row.secrets column) then rewriteRow F keys draws row columns
    else
      match decrypt F keys (row.secrets column) with
      | none => .error (.unreadable column)
      | some opened =>
        (rewriteRow F keys draws row columns).map
          ((column, encrypt F keys (draws column) (some opened)) :: ·)

/-- A row with some of its columns written. -/
def Row.set (row : Row) (changes : List (String × Option String)) : Row where
  id := row.id
  secrets column := (changes.lookup column).getD (row.secrets column)

inductive Phase
  /-- The next batch of the first model is read, behind an id, or all is committed. -/
  | reading (models : List Model) (last : ℕ)
  /-- The rows of a batch are written one by one, the batch ending with an id. -/
  | writing (model : Model) (models : List Model) (rows : List Row) (last : ℕ)
  | ended (result : Except Error ℕ)

/-- A rewrite and the database it works on. -/
structure Rotation where
  /-- What everybody else sees. -/
  committed : Database
  /-- What others left of the database, whatever the rewrite did. -/
  elsewhere : Database
  /-- The rows the transaction wrote, each behind what was read of it. -/
  written : String → ℕ → Option (Row × Row)
  /-- The columns others changed since it began. -/
  touched : String → ℕ → String → Prop
  phase : Phase
  rewritten : ℕ

namespace Rotation

variable {κ δ : Type} (F : Fernet κ δ) (keys : Keys κ)

def start (registry : Registry) (db : Database) : Rotation where
  committed := db
  elsewhere := db
  written _ _ := none
  touched _ _ _ := False
  phase := .reading (stored registry) 0
  rewritten := 0

/-- A row as the transaction sees it. -/
def seen (s : Rotation) (table : String) (row : Row) : Row :=
  match s.written table row.id with
  | none => row
  | some (_, new) => new

def view (s : Rotation) : Database := fun table => (s.committed table).map (s.seen table)

def select (s : Rotation) (table : String) (last : ℕ) : List Row :=
  (sortedBy Row.id ((s.view table).filter (last < ·.id))).take batchSize

/-- The rows that are still as they were read. -/
def unchanged (s : Rotation) (model : Model) (row : Row) : List Row :=
  (s.view model.1).filter fun r =>
    r.id = row.id ∧ ∀ column ∈ model.2, r.secrets column = row.secrets column

def rollback (s : Rotation) (e : Error) : Rotation :=
  { s with written := fun _ _ => none, phase := .ended (.error e) }

/-- The next statement of a rewrite, with what its draws are. -/
def advance (s : Rotation) (draws : String → δ) : Rotation :=
  match s.phase with
  | .reading [] _ => { s with committed := s.view, phase := .ended (.ok s.rewritten) }
  | .reading (model :: models) last =>
    match (s.select model.1 last).getLast? with
    | none => { s with phase := .reading models 0 }
    | some row => { s with phase := .writing model models (s.select model.1 last) row.id }
  | .writing model models [] last => { s with phase := .reading (model :: models) last }
  | .writing model models (row :: rows) last =>
    match rewriteRow F keys draws row model.2 with
    | .error e => s.rollback e
    | .ok changes =>
      if changes = [] then { s with phase := .writing model models rows last }
      else
        match s.unchanged model row with
        | [current] => { s with
          written := fun table i =>
            if table = model.1 ∧ i = row.id then some (row, current.set changes)
            else s.written table i
          phase := .writing model models rows last
          rewritten := s.rewritten + changes.length }
        | _ => s.rollback .changed
  | .ended _ => s

/-- What others may do to a database while some of its rows are locked: rows come, go and change, and
what is written in a column of secrets is encrypted with the first key. -/
structure Elsewhere (keys : Keys κ) (locked : String → ℕ → Prop) (db db' : Database) : Prop where
  ids : ∀ table, ((db' table).map Row.id).Nodup
  positive : ∀ table, ∀ row ∈ db' table, 0 < row.id
  kept : ∀ table, ∀ row : Row, locked table row.id → (row ∈ db' table ↔ row ∈ db table)
  wrote : ∀ table, ∀ row' ∈ db' table, ∀ column,
    (∃ row ∈ db table, row.id = row'.id ∧ row.secrets column = row'.secrets column) ∨
      ∃ draw raw, row'.secrets column = encrypt F keys draw raw

/-- A column of a row is not what it was. -/
def Touches (db db' : Database) (table : String) (i : ℕ) (column : String) : Prop :=
  ∀ row ∈ db table, ∀ row' ∈ db' table, row.id = i → row'.id = i →
    row.secrets column ≠ row'.secrets column

def Running (s : Rotation) : Prop := ∀ result, s.phase ≠ .ended result

/-- One step: the rewrite goes on, a statement of it raises, or others change the database. -/
inductive Step (s : Rotation) : Rotation → Prop
  | own (draws : String → δ) : s.Running → Step s (s.advance F keys draws)
  | raises : s.Running → Step s (s.rollback .failed)
  | others (db : Database) : s.Running →
      Elsewhere F keys (fun table i => s.written table i ≠ none) s.committed db →
      Step s { s with
        committed := db
        elsewhere := db
        touched := fun table i column =>
          s.touched table i column ∨ Touches s.committed db table i column }

/-- All that a rewrite may come to. -/
def Reaches : Rotation → Rotation → Prop := Relation.ReflTransGen (Step F keys)

end Rotation

end FastKit.Secrets
