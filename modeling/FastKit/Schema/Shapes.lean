import FastKit.Catalogue.Picks
import Mathlib.Data.String.Basic

/-! # Shapes of a database

What a database holds as rows, what the models declare it to hold, and how a server carries out a
statement that changes it: a statement that names what is there already, or what is not there, is
refused, and the server stops at it.
-/

namespace FastKit.Schema

structure ColumnRow where
  table : String
  name : String
  type : String
  nullable : Bool
  default : String
  extra : String
  deriving DecidableEq

/-- An index of a table, its columns and expressions as one text each. -/
structure IndexRow where
  table : String
  name : String
  unique : Bool
  columns : String
  expressions : String
  deriving DecidableEq

/-- A foreign key, which is one column that refers to another. -/
structure KeyRow where
  table : String
  column : String
  refTable : String
  refColumn : String
  rule : String
  deriving DecidableEq

structure Shape where
  tables : List String
  columns : List ColumnRow
  indexes : List IndexRow
  keys : List KeyRow

/-! ## What the models declare -/

/-- What the application writes in a column that is not given. -/
inductive Scalar
  | boolean (value : Bool)
  | number (text : String)
  | text (value : String)

structure Column where
  name : String
  type : String
  nullable : Bool
  extra : String
  /-- The default the application has, where it is one value and not computed. -/
  default : Option Scalar

structure Index where
  name : String
  columns : List String
  unique : Bool
  parts : String
  expressions : String

/-- A uniqueness declared as a constraint. -/
structure Unique where
  name : String
  columns : List String

structure ForeignKey where
  column : String
  refTable : String
  refColumn : String
  rule : String
  /-- The index a server gives the key where the table has none of that name. -/
  given : Option Index

def Column.row (table : String) (c : Column) : ColumnRow :=
  ⟨table, c.name, c.type, c.nullable, "", c.extra⟩

def Index.row (table : String) (i : Index) : IndexRow :=
  ⟨table, i.name, i.unique, i.parts, i.expressions⟩

/-- The index a uniqueness is to a database. -/
def Unique.index (u : Unique) : Index := ⟨u.name, u.columns, true, ",".intercalate u.columns, ""⟩

def ForeignKey.row (table : String) (f : ForeignKey) : KeyRow :=
  ⟨table, f.column, f.refTable, f.refColumn, f.rule⟩

/-- A table of the models. No name stands twice in it, and what it is indexed and referred by are
columns it has. -/
structure Table where
  name : String
  columns : List Column
  primary : Option Index
  indexes : List Index
  uniques : List Unique
  foreignKeys : List ForeignKey
  columnNames : (columns.map Column.name).Nodup
  indexNames : ((primary.toList ++ indexes ++ uniques.map Unique.index ++
    foreignKeys.filterMap ForeignKey.given).map Index.name).Nodup
  keyColumns : (foreignKeys.map ForeignKey.column).Nodup
  indexed : ∀ i ∈ indexes ++ uniques.map Unique.index, ∀ c ∈ i.columns, c ∈ columns.map Column.name
  referring : ∀ f ∈ foreignKeys, f.column ∈ columns.map Column.name

/-- All indexes of a table. -/
def Table.allIndexes (T : Table) : List Index :=
  T.primary.toList ++ T.indexes ++ T.uniques.map Unique.index ++
    T.foreignKeys.filterMap ForeignKey.given

/-- The tables of the models, each behind those its keys refer to. -/
structure Metadata where
  tables : List Table
  names : (tables.map Table.name).Nodup
  sorted : ∀ xs T ys, tables = xs ++ T :: ys → ∀ f ∈ T.foreignKeys,
    ∃ R ∈ xs ++ [T], R.name = f.refTable ∧ f.refColumn ∈ R.columns.map Column.name

/-- The shape of a schema a server builds from scratch. -/
def Metadata.shape (M : Metadata) : Shape where
  tables := M.tables.map Table.name
  columns := M.tables.flatMap fun T => T.columns.map (Column.row T.name)
  indexes := M.tables.flatMap fun T => T.allIndexes.map (Index.row T.name)
  keys := M.tables.flatMap fun T => T.foreignKeys.map (ForeignKey.row T.name)

/-! ## A server -/

/-- A key and the name its database gave it, none where the server makes one up as it goes. -/
structure Key where
  name : Option String
  row : KeyRow
  deriving DecidableEq

structure Database where
  tables : List String
  columns : List ColumnRow
  indexes : List IndexRow
  keys : List Key

def Database.shape (db : Database) : Shape := ⟨db.tables, db.columns, db.indexes, db.keys.map Key.row⟩

inductive Statement
  | createTable (T : Table)
  | createIndex (table : String) (i : Index)
  | addUnique (table : String) (u : Unique)
  | addColumn (table : String) (c : Column) (filled : Option String)
  | dropDefault (table column : String)
  | dropIndex (table name : String)
  | addForeignKey (table : String) (f : ForeignKey)
  | dropForeignKey (table name : String)
  /-- A comment: somebody says what a required column holds in the rows of today. -/
  | humanDecides (table column : String)
  /-- A comment: what stands here waits on such a decision. -/
  | waits (table name : String)

namespace Database

variable (db : Database)

def HasColumn (table name : String) : Prop := ∃ r ∈ db.columns, r.table = table ∧ r.name = name

def HasIndex (table name : String) : Prop := ∃ r ∈ db.indexes, r.table = table ∧ r.name = name

/-- Some key of the table refers by a column. -/
def HasKey (table column : String) : Prop :=
  ∃ k ∈ db.keys, k.row.table = table ∧ k.row.column = column

instance (table name : String) : Decidable (db.HasColumn table name) :=
  inferInstanceAs (Decidable (∃ r ∈ db.columns, r.table = table ∧ r.name = name))

instance (table name : String) : Decidable (db.HasIndex table name) :=
  inferInstanceAs (Decidable (∃ r ∈ db.indexes, r.table = table ∧ r.name = name))

instance (table column : String) : Decidable (db.HasKey table column) :=
  inferInstanceAs (Decidable (∃ k ∈ db.keys, k.row.table = table ∧ k.row.column = column))

/-- An index over columns that are there. -/
def addIndex (table : String) (i : Index) : Option Database :=
  if table ∈ db.tables ∧ ¬ db.HasIndex table i.name ∧ ∀ c ∈ i.columns, db.HasColumn table c then
    some { db with indexes := db.indexes ++ [i.row table] }
  else none

/-- The indexes a server gives a key. -/
def givenFor (table : String) (f : ForeignKey) : List IndexRow :=
  (f.given.toList.filter fun i => ¬ db.HasIndex table i.name).map (Index.row table)

/-- One statement, none where it is refused. A second key on a column counts as refused, as the
first one would go on being enforced. The server is idealised: an index that a key needs may be
dropped. -/
def execute : Statement → Option Database
  | .createTable T =>
    if T.name ∉ db.tables ∧
        ∀ f ∈ T.foreignKeys, f.refTable = T.name ∨ db.HasColumn f.refTable f.refColumn then
      some {
        tables := db.tables ++ [T.name]
        columns := db.columns ++ T.columns.map (Column.row T.name)
        indexes := db.indexes ++ (T.primary.toList ++ T.uniques.map Unique.index ++
          T.foreignKeys.filterMap ForeignKey.given).map (Index.row T.name)
        keys := db.keys ++ T.foreignKeys.map fun f => ⟨none, f.row T.name⟩ }
    else none
  | .createIndex table i => db.addIndex table i
  | .addUnique table u => db.addIndex table u.index
  | .addColumn table c filled =>
    if table ∈ db.tables ∧ ¬ db.HasColumn table c.name then
      some { db with columns := db.columns ++ [{ c.row table with default := filled.getD "" }] }
    else none
  | .dropDefault table column =>
    if db.HasColumn table column then
      some { db with columns := db.columns.map fun r =>
        if r.table = table ∧ r.name = column then { r with default := "" } else r }
    else none
  | .dropIndex table name =>
    if db.HasIndex table name then
      some { db with indexes := db.indexes.filter fun r => ¬ (r.table = table ∧ r.name = name) }
    else none
  | .addForeignKey table f =>
    if table ∈ db.tables ∧ ¬ db.HasKey table f.column ∧ db.HasColumn table f.column ∧
        db.HasColumn f.refTable f.refColumn then
      some { db with
        keys := db.keys ++ [⟨none, f.row table⟩]
        indexes := db.indexes ++ db.givenFor table f }
    else none
  | .dropForeignKey table name =>
    if ∃ k ∈ db.keys, k.row.table = table ∧ k.name = some name then
      some { db with keys := db.keys.filter fun k => ¬ (k.row.table = table ∧ k.name = some name) }
    else none
  | .humanDecides _ _ => some db
  | .waits _ _ => some db

/-- The statements in order, none where one is refused. -/
def run (ss : List Statement) : Option Database := ss.foldlM execute db

end Database

end FastKit.Schema
