import FastKit.Schema.Shapes

/-! # What the database should be, against what it is

The difference of two shapes, row by row, and the statements proposed for what is missing, table by
table in the order the models are sorted in.
-/

namespace FastKit.Schema

open Picks (sortedBy)

/-- The rows one shape has over another, either way. -/
structure Change (α : Type) where
  missing : List α
  extra : List α

structure Difference where
  tables : Change String
  columns : Change ColumnRow
  indexes : Change IndexRow
  keys : Change KeyRow

/-- A table and a name in it, in the order rows are sorted by. -/
abbrev Place := String ×ₗ String

def ColumnRow.place (r : ColumnRow) : Place := toLex (r.table, r.name)

def IndexRow.place (r : IndexRow) : Place := toLex (r.table, r.name)

def KeyRow.place (r : KeyRow) : Place := toLex (r.table, r.column)

def change {α κ : Type} [DecidableEq α] [LinearOrder κ] (place : α → κ) (fresh current : List α) :
    Change α where
  missing := sortedBy place (fresh.filter (· ∉ current))
  extra := sortedBy place (current.filter (· ∉ fresh))

def difference (fresh current : Shape) : Difference where
  tables := change id fresh.tables current.tables
  columns := change ColumnRow.place fresh.columns current.columns
  indexes := change IndexRow.place fresh.indexes current.indexes
  keys := change KeyRow.place fresh.keys current.keys

/-- The value the rows already there receive. -/
def filling (column : Column) : Option String :=
  match column.default with
  | none => none
  | some (.boolean value) => some (if value then "1" else "0")
  | some (.number text) => some text
  | some (.text value) => some ("'" ++ value ++ "'")

/-- A column that arrives on a table that may have rows. -/
def adding (table : Table) (column : Column) : List Statement :=
  if column.nullable then [.addColumn table.name column none]
  else
    match filling column with
    | none => [.humanDecides table.name column.name]
    | some value =>
      [.addColumn table.name column (some value), .dropDefault table.name column.name]

/-- What kept its place and changed its shape. -/
def reshaped {α : Type} (place : α → Place) (change : Change α) : List Place :=
  (change.missing.map place).filter (· ∈ change.extra.map place)

/-- Whether a statement is written as a comment for somebody to decide. -/
def Statement.isHuman : Statement → Bool
  | .humanDecides _ _ => true
  | _ => false

/-- The columns that arrive on a table, in the order of their names. -/
def arriving (shapes : Difference) (table : Table) : List Column :=
  (shapes.columns.missing.filter (·.table = table.name)).filterMap fun row =>
    table.columns.find? (·.name = row.name)

/-- The columns somebody has to decide about. -/
def pending (shapes : Difference) (table : Table) : List String :=
  ((arriving shapes table).filter fun column =>
    (adding table column).head?.any Statement.isHuman).map Column.name

/-- An index that is missing, or a uniqueness that is one to a database. -/
def indexing (shapes : Difference) (table : Table) (name : String) (columns : List String)
    (create : Statement) : List Statement :=
  if toLex (table.name, name) ∉ shapes.indexes.missing.map IndexRow.place then []
  else if ∃ c ∈ columns, c ∈ pending shapes table then [.waits table.name name]
  else
    (if toLex (table.name, name) ∈ reshaped IndexRow.place shapes.indexes then
      [.dropIndex table.name name] else []) ++ [create]

/-- A key that is missing, `keyNames` being what the database calls the one a column has. -/
def keying (shapes : Difference) (keyNames : String → String → String) (table : Table)
    (key : ForeignKey) : List Statement :=
  if toLex (table.name, key.column) ∉ shapes.keys.missing.map KeyRow.place then []
  else if key.column ∈ pending shapes table then [.waits table.name key.column]
  else
    (if toLex (table.name, key.column) ∈ reshaped KeyRow.place shapes.keys then
      [.dropForeignKey table.name (keyNames table.name key.column)] else []) ++
      [.addForeignKey table.name key]

def statementsOf (shapes : Difference) (keyNames : String → String → String) (table : Table) :
    List Statement :=
  if table.name ∈ shapes.tables.missing then
    .createTable table ::
      (sortedBy Index.name table.indexes).map (Statement.createIndex table.name)
  else
    (arriving shapes table).flatMap (adding table) ++
      table.indexes.flatMap (fun i =>
        indexing shapes table i.name i.columns (.createIndex table.name i)) ++
      table.uniques.flatMap (fun u =>
        indexing shapes table u.name u.columns (.addUnique table.name u)) ++
      table.foreignKeys.flatMap (keying shapes keyNames table)

def statementsFor (M : Metadata) (shapes : Difference) (keyNames : String → String → String) :
    List Statement :=
  M.tables.flatMap (statementsOf shapes keyNames)

end FastKit.Schema
