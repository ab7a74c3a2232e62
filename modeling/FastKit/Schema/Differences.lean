import FastKit.Schema.Statements
import FastKit.Services.SchemaDiff

/-! # What a difference says of each thing

A name of the models stands for one row of a fresh shape, so a row is missing where the stored shape
does not have it, and reshaped where the stored shape has another one under its name.
-/

namespace FastKit.Schema

open Picks (sortedBy)

/-- A database as it is before anything is proposed: each key has a name of its own, and rows are of
tables that are there. -/
structure Stored extends Database where
  named : ∀ k ∈ keys, k.name ≠ none
  names : (keys.map fun k => (k.row.table, k.name)).Nodup
  columnsOwned : ∀ r ∈ columns, r.table ∈ tables
  indexesOwned : ∀ r ∈ indexes, r.table ∈ tables
  keysOwned : ∀ k ∈ keys, k.row.table ∈ tables

/-- What the database calls the key a column has, the last one it names where there are several. -/
def Database.keyName (db : Database) (table column : String) : String :=
  ((db.keys.filter fun k => k.row.table = table ∧ k.row.column = column).getLast?.bind
    Key.name).getD ""

/-- What is missing of a fresh shape in a database, and over. -/
def Metadata.against (M : Metadata) (db : Stored) : Difference :=
  difference M.shape db.toDatabase.shape

/-- The statements proposed for a database. -/
def Metadata.proposal (M : Metadata) (db : Stored) : List Statement :=
  statementsFor M (M.against db) db.keyName

section Change

variable {α κ : Type} [DecidableEq α] [LinearOrder κ] {place : α → κ} {fresh current : List α} {r : α}

@[simp] theorem mem_missing : r ∈ (change place fresh current).missing ↔ r ∈ fresh ∧ r ∉ current := by
  simp [change]

@[simp] theorem mem_extra : r ∈ (change place fresh current).extra ↔ r ∈ current ∧ r ∉ fresh := by
  simp [change]

/-- A row without another one at its place is missing where its place is. -/
theorem place_mem_missing (hr : r ∈ fresh) (hone : ∀ q ∈ fresh, place q = place r → q = r) :
    place r ∈ (change place fresh current).missing.map place ↔ r ∉ current := by
  simp only [List.mem_map, mem_missing]
  constructor
  · rintro ⟨q, ⟨hq, hc⟩, hp⟩
    exact hone q hq hp ▸ hc
  · exact fun hc => ⟨r, ⟨hr, hc⟩, rfl⟩

end Change

/-- A place is reshaped where its row is missing and the stored shape has a row there. -/
theorem place_mem_reshaped {α : Type} [DecidableEq α] {place : α → Place} {fresh current : List α}
    {r : α} (hr : r ∈ fresh) (hone : ∀ q ∈ fresh, place q = place r → q = r) :
    place r ∈ reshaped place (change place fresh current) ↔
      r ∉ current ∧ ∃ q ∈ current, place q = place r := by
  rw [reshaped, List.mem_filter, place_mem_missing hr hone, decide_eq_true_eq]
  refine and_congr_right fun hc => ?_
  simp only [List.mem_map, mem_extra]
  constructor
  · rintro ⟨q, ⟨hq, -⟩, hp⟩
    exact ⟨q, hq, hp⟩
  · rintro ⟨q, hq, hp⟩
    exact ⟨q, ⟨hq, fun hf => hc (hone q hf hp ▸ hq)⟩, hp⟩

variable {M : Metadata} {db : Stored} {T T' : Table}

theorem table_eq (hT : T ∈ M.tables) (hT' : T' ∈ M.tables) (h : T.name = T'.name) : T = T' :=
  List.inj_on_of_nodup_map M.names hT hT' h

theorem mem_tables_missing (hT : T ∈ M.tables) :
    T.name ∈ (M.against db).tables.missing ↔ T.name ∉ db.tables := by
  simp only [Metadata.against, difference, mem_missing, Database.shape, and_iff_right_iff_imp]
  exact fun _ => List.mem_map_of_mem hT

theorem mem_shape_indexes {i : Index} (hT : T ∈ M.tables) (hi : i ∈ T.allIndexes) :
    i.row T.name ∈ M.shape.indexes :=
  List.mem_flatMap.mpr ⟨T, hT, List.mem_map_of_mem hi⟩

theorem index_row_unique {i : Index} (hT : T ∈ M.tables) (hi : i ∈ T.allIndexes) :
    ∀ q ∈ M.shape.indexes, q.place = (i.row T.name).place → q = i.row T.name := by
  intro q hq hp
  obtain ⟨T', hT', hq⟩ := List.mem_flatMap.mp hq
  obtain ⟨j, hj, rfl⟩ := List.mem_map.mp hq
  simp only [IndexRow.place, Index.row, EmbeddingLike.apply_eq_iff_eq, Prod.mk.injEq] at hp
  obtain rfl := table_eq hT' hT hp.1
  rw [List.inj_on_of_nodup_map T'.indexNames hj hi hp.2]

theorem mem_shape_keys {f : ForeignKey} (hT : T ∈ M.tables) (hf : f ∈ T.foreignKeys) :
    f.row T.name ∈ M.shape.keys :=
  List.mem_flatMap.mpr ⟨T, hT, List.mem_map_of_mem hf⟩

theorem key_row_unique {f : ForeignKey} (hT : T ∈ M.tables) (hf : f ∈ T.foreignKeys) :
    ∀ q ∈ M.shape.keys, q.place = (f.row T.name).place → q = f.row T.name := by
  intro q hq hp
  obtain ⟨T', hT', hq⟩ := List.mem_flatMap.mp hq
  obtain ⟨g, hg, rfl⟩ := List.mem_map.mp hq
  simp only [KeyRow.place, ForeignKey.row, EmbeddingLike.apply_eq_iff_eq, Prod.mk.injEq] at hp
  obtain rfl := table_eq hT' hT hp.1
  rw [List.inj_on_of_nodup_map T'.keyColumns hg hf hp.2]

theorem index_missing_iff {i : Index} (hT : T ∈ M.tables) (hi : i ∈ T.allIndexes) :
    toLex (T.name, i.name) ∈ (M.against db).indexes.missing.map IndexRow.place ↔
      i.row T.name ∉ db.indexes :=
  place_mem_missing (mem_shape_indexes hT hi) (index_row_unique hT hi)

theorem index_reshaped_iff {i : Index} (hT : T ∈ M.tables) (hi : i ∈ T.allIndexes) :
    toLex (T.name, i.name) ∈ reshaped IndexRow.place (M.against db).indexes ↔
      i.row T.name ∉ db.indexes ∧ db.HasIndex T.name i.name := by
  refine (place_mem_reshaped (mem_shape_indexes hT hi) (index_row_unique hT hi)).trans ?_
  simp [IndexRow.place, Index.row, Database.HasIndex, Database.shape]

theorem key_missing_iff {f : ForeignKey} (hT : T ∈ M.tables) (hf : f ∈ T.foreignKeys) :
    toLex (T.name, f.column) ∈ (M.against db).keys.missing.map KeyRow.place ↔
      f.row T.name ∉ db.shape.keys :=
  place_mem_missing (mem_shape_keys hT hf) (key_row_unique hT hf)

theorem key_reshaped_iff {f : ForeignKey} (hT : T ∈ M.tables) (hf : f ∈ T.foreignKeys) :
    toLex (T.name, f.column) ∈ reshaped KeyRow.place (M.against db).keys ↔
      f.row T.name ∉ db.shape.keys ∧ db.HasKey T.name f.column := by
  refine (place_mem_reshaped (mem_shape_keys hT hf) (key_row_unique hT hf)).trans ?_
  simp [KeyRow.place, ForeignKey.row, Database.HasKey, Database.shape]

end FastKit.Schema
