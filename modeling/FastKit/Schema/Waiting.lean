import FastKit.Schema.Differences

/-! # What a proposal says of a table

Which columns arrive on a table that is there, which of them wait for a decision, and which
statements are proposed for it, each by what the database has.
-/

namespace FastKit.Schema

open Picks (sortedBy sortedBy_perm)

variable {M : Metadata} {db : Stored} {T : Table} {c : Column} {f : ForeignKey} {i : Index}
  {n : String} {st : Statement}

/-- A column somebody decides about: required, without a value for the rows of today, and not there
as the models have it. -/
structure Undecided (db : Stored) (T : Table) (c : Column) : Prop where
  there : T.name ∈ db.tables
  declared : c ∈ T.columns
  missing : c.row T.name ∉ db.columns
  required : c.nullable = false
  unfilled : filling c = none

/-- A column of this name waits for a decision. -/
def Waits (db : Stored) (T : Table) (n : String) : Prop := ∃ c, Undecided db T c ∧ c.name = n

theorem mem_shape_columns {r : ColumnRow} :
    r ∈ M.shape.columns ↔ ∃ T ∈ M.tables, ∃ c ∈ T.columns, c.row T.name = r := by
  simp [Metadata.shape]

theorem column_eq {c' : Column} (hc : c ∈ T.columns) (hc' : c' ∈ T.columns) (h : c.name = c'.name) :
    c = c' :=
  List.inj_on_of_nodup_map T.columnNames hc hc' h

theorem find?_column (hc : c ∈ T.columns) : T.columns.find? (·.name = c.name) = some c := by
  cases h : T.columns.find? (·.name = c.name) with
  | none => simpa using List.find?_eq_none.mp h c hc
  | some d =>
    have hn : d.name = c.name := by simpa using List.find?_some h
    rw [column_eq (List.mem_of_find?_eq_some h) hc hn]

theorem mem_arriving (hT : T ∈ M.tables) :
    c ∈ arriving (M.against db) T ↔ c ∈ T.columns ∧ c.row T.name ∉ db.columns := by
  simp only [arriving, List.mem_filterMap, List.mem_filter, decide_eq_true_eq, Metadata.against,
    difference, mem_missing]
  constructor
  · rintro ⟨r, ⟨⟨hr, hgone⟩, ht⟩, hfind⟩
    obtain ⟨T', hT', c', hc', rfl⟩ := mem_shape_columns.mp hr
    obtain rfl := table_eq hT' hT ht
    have hn := List.find?_some hfind
    rw [decide_eq_true_eq] at hn
    have hc : c ∈ T'.columns := List.mem_of_find?_eq_some hfind
    obtain rfl := column_eq hc hc' hn
    exact ⟨hc, hgone⟩
  · rintro ⟨hc, hgone⟩
    exact ⟨c.row T.name, ⟨⟨mem_shape_columns.mpr ⟨T, hT, c, hc, rfl⟩, hgone⟩, rfl⟩,
      find?_column hc⟩

/-- No place of a column stands twice among the tables of the models. -/
theorem places_nodup (M : Metadata) : (M.shape.columns.map ColumnRow.place).Nodup := by
  rw [Metadata.shape, List.map_flatMap, List.nodup_flatMap]
  constructor
  · intro T _
    rw [List.map_map]
    refine List.Nodup.of_map (fun p : Place => (ofLex p).2) ?_
    rw [List.map_map]
    exact T.columnNames
  · refine (List.pairwise_map.mp M.names).imp fun {T T'} hne => ?_
    change List.Disjoint _ _
    rw [List.disjoint_left]
    intro p hp hp'
    simp only [List.map_map, List.mem_map, Function.comp_apply] at hp hp'
    obtain ⟨c, -, rfl⟩ := hp
    obtain ⟨c', -, h⟩ := hp'
    simp only [ColumnRow.place, Column.row, EmbeddingLike.apply_eq_iff_eq, Prod.mk.injEq] at h
    exact hne h.1.symm

/-- A column arrives once. -/
theorem arriving_nodup (M : Metadata) (db : Stored) (T : Table) :
    ((arriving (M.against db) T).map Column.name).Nodup := by
  have hplaces : ((M.against db).columns.missing.map ColumnRow.place).Nodup := by
    refine (((sortedBy_perm _ _).map _).nodup_iff).mpr ?_
    exact (places_nodup M).sublist (List.filter_sublist.map _)
  rw [arriving, List.Nodup, List.pairwise_map, List.pairwise_filterMap]
  refine ((List.pairwise_map.mp hplaces).filter _).imp_of_mem ?_
  intro r r' hr hr' hne c hc c' hc' heq
  have ht : r.table = T.name := by simpa using (List.mem_filter.mp hr).2
  have ht' : r'.table = T.name := by simpa using (List.mem_filter.mp hr').2
  have hn : c.name = r.name := by simpa using List.find?_some hc
  have hn' : c'.name = r'.name := by simpa using List.find?_some hc'
  exact hne (by rw [ColumnRow.place, ColumnRow.place, ht, ht', ← hn, ← hn', heq])

/-- A column is handed to somebody where it is required and nothing fills it. -/
theorem adding_human : ((adding T c).head?.any Statement.isHuman) = true ↔
    c.nullable = false ∧ filling c = none := by
  rw [adding]
  cases hn : c.nullable
  · cases hf : filling c <;> simp [Statement.isHuman]
  · simp [Statement.isHuman]

theorem mem_pending (hT : T ∈ M.tables) (hthere : T.name ∈ db.tables) :
    n ∈ pending (M.against db) T ↔ Waits db T n := by
  simp only [pending, List.mem_map, List.mem_filter, mem_arriving hT, adding_human]
  constructor
  · rintro ⟨c, ⟨⟨hc, hgone⟩, hreq, hfill⟩, hn⟩
    exact ⟨c, ⟨hthere, hc, hgone, hreq, hfill⟩, hn⟩
  · rintro ⟨c, h, hn⟩
    exact ⟨c, ⟨⟨h.declared, h.missing⟩, h.required, h.unfilled⟩, hn⟩

/-- A column that arrives and is not waited for is added. -/
theorem adding_column (h : ¬ (c.nullable = false ∧ filling c = none)) :
    ∃ filled, .addColumn T.name c filled ∈ adding T c := by
  rw [adding]
  cases hn : c.nullable
  · cases hf : filling c with
    | none => exact absurd ⟨hn, hf⟩ h
    | some value => exact ⟨some value, by simp⟩
  · exact ⟨none, by simp⟩

/-- What a table is indexed by, each with the statement that makes it. -/
def Table.makings (T : Table) : List (Index × Statement) :=
  T.indexes.map (fun i => (i, Statement.createIndex T.name i)) ++
    T.uniques.map fun u => (u.index, Statement.addUnique T.name u)

theorem makings_index (T : Table) :
    T.makings.map Prod.fst = T.indexes ++ T.uniques.map Unique.index := by
  simp [Table.makings, Function.comp_def]

theorem mem_makings_index {a : Index × Statement} (ha : a ∈ T.makings) :
    a.1 ∈ T.indexes ++ T.uniques.map Unique.index := by
  rw [← makings_index]
  exact List.mem_map_of_mem ha

theorem execute_making {a : Index × Statement} (ha : a ∈ T.makings) (s : Database) :
    s.execute a.2 = s.addIndex T.name a.1 := by
  simp only [Table.makings, List.mem_append, List.mem_map] at ha
  obtain ⟨i, -, rfl⟩ | ⟨u, -, rfl⟩ := ha <;> rfl

/-- What is proposed for a table that is there. -/
theorem statementsOf_there (hT : T ∈ M.tables) (hthere : T.name ∈ db.tables) :
    statementsOf (M.against db) db.keyName T =
      (arriving (M.against db) T).flatMap (adding T) ++
        T.makings.flatMap (fun a => indexing (M.against db) T a.1.name a.1.columns a.2) ++
        T.foreignKeys.flatMap (keying (M.against db) db.keyName T) := by
  rw [statementsOf, if_neg (by rw [mem_tables_missing hT]; exact not_not.mpr hthere)]
  simp [Table.makings, List.flatMap_map, Unique.index]

/-- What is proposed for a table that is not there. -/
theorem statementsOf_gone (hT : T ∈ M.tables) (hgone : T.name ∉ db.tables) :
    statementsOf (M.against db) db.keyName T =
      .createTable T :: (sortedBy Index.name T.indexes).map (Statement.createIndex T.name) := by
  rw [statementsOf, if_pos ((mem_tables_missing hT).mpr hgone)]

theorem making_declared (hi : i ∈ T.indexes ++ T.uniques.map Unique.index) : i ∈ T.allIndexes := by
  simp only [Table.allIndexes, List.mem_append] at hi ⊢
  tauto

/-- What is proposed for an index, by what the database has. -/
theorem indexing_eq (hT : T ∈ M.tables) (hthere : T.name ∈ db.tables)
    (hi : i ∈ T.indexes ++ T.uniques.map Unique.index) [Decidable (∃ n ∈ i.columns, Waits db T n)] :
    indexing (M.against db) T i.name i.columns st =
      if i.row T.name ∈ db.indexes then []
      else if ∃ n ∈ i.columns, Waits db T n then [.waits T.name i.name]
      else (if db.HasIndex T.name i.name then [.dropIndex T.name i.name] else []) ++ [st] := by
  have hi' := making_declared hi
  simp only [indexing, index_missing_iff hT hi', index_reshaped_iff hT hi', mem_pending hT hthere]
  by_cases hr : i.row T.name ∈ db.indexes <;> simp [hr]

/-- What is proposed for a key, by what the database has. -/
theorem keying_eq (hT : T ∈ M.tables) (hthere : T.name ∈ db.tables) (hf : f ∈ T.foreignKeys)
    [Decidable (Waits db T f.column)] :
    keying (M.against db) db.keyName T f =
      if f.row T.name ∈ db.shape.keys then []
      else if Waits db T f.column then [.waits T.name f.column]
      else (if db.HasKey T.name f.column then
        [.dropForeignKey T.name (db.keyName T.name f.column)] else []) ++
          [.addForeignKey T.name f] := by
  simp only [keying, key_missing_iff hT hf, key_reshaped_iff hT hf, mem_pending hT hthere]
  by_cases hr : f.row T.name ∈ db.shape.keys <;> simp [hr]

/-- The statements that are proposed for a table that is there, each with its reason. -/
inductive Proposed (db : Stored) (T : Table) : Statement → Prop
  | column (c : Column) (filled : Option String) : c ∈ T.columns → c.row T.name ∉ db.columns →
      ¬ (c.nullable = false ∧ filling c = none) → Proposed db T (.addColumn T.name c filled)
  | undefault (c : Column) : c ∈ T.columns → Proposed db T (.dropDefault T.name c.name)
  | decides (n : String) : Proposed db T (.humanDecides T.name n)
  | waits (n : String) : Proposed db T (.waits T.name n)
  | unindex (i : Index) : i ∈ T.indexes ++ T.uniques.map Unique.index → i.row T.name ∉ db.indexes →
      Proposed db T (.dropIndex T.name i.name)
  | index (i : Index) : i ∈ T.indexes → Proposed db T (.createIndex T.name i)
  | unique (u : Unique) : u ∈ T.uniques → Proposed db T (.addUnique T.name u)
  | unkey (f : ForeignKey) : f ∈ T.foreignKeys → f.row T.name ∉ db.shape.keys →
      db.HasKey T.name f.column →
      Proposed db T (.dropForeignKey T.name (db.keyName T.name f.column))
  | key (f : ForeignKey) : f ∈ T.foreignKeys → f.row T.name ∉ db.shape.keys →
      ¬ Waits db T f.column → Proposed db T (.addForeignKey T.name f)

theorem proposed_of_adding (hc : c ∈ T.columns) (hgone : c.row T.name ∉ db.columns)
    (h : st ∈ adding T c) : Proposed db T st := by
  rw [adding] at h
  cases hn : c.nullable
  · cases hf : filling c with
    | none =>
      obtain rfl : st = .humanDecides T.name c.name := by simpa [hn, hf] using h
      exact .decides c.name
    | some value =>
      obtain rfl | rfl : st = .addColumn T.name c (some value) ∨ st = .dropDefault T.name c.name := by
        simpa [hn, hf] using h
      · exact .column c _ hc hgone (by simp [hf])
      · exact .undefault c hc
  · obtain rfl : st = .addColumn T.name c none := by simpa [hn] using h
    exact .column c _ hc hgone (by simp [hn])

theorem proposed_of_making {a : Index × Statement} (ha : a ∈ T.makings) : Proposed db T a.2 := by
  simp only [Table.makings, List.mem_append, List.mem_map] at ha
  obtain ⟨i, hi, rfl⟩ | ⟨u, hu, rfl⟩ := ha
  · exact .index i hi
  · exact .unique u hu

theorem proposed_of_mem (hT : T ∈ M.tables) (hthere : T.name ∈ db.tables)
    (h : st ∈ statementsOf (M.against db) db.keyName T) : Proposed db T st := by
  classical
  rw [statementsOf_there hT hthere, List.mem_append, List.mem_append] at h
  obtain (h | h) | h := h
  · obtain ⟨c, hc, h⟩ := List.mem_flatMap.mp h
    obtain ⟨hc, hgone⟩ := (mem_arriving hT).mp hc
    exact proposed_of_adding hc hgone h
  · obtain ⟨a, ha, h⟩ := List.mem_flatMap.mp h
    rw [indexing_eq hT hthere (mem_makings_index ha)] at h
    split_ifs at h with hr hw hx
    · cases h
    · obtain rfl := List.mem_singleton.mp h
      exact .waits a.1.name
    · obtain rfl | rfl : st = .dropIndex T.name a.1.name ∨ st = a.2 := by simpa using h
      · exact .unindex a.1 (mem_makings_index ha) hr
      · exact proposed_of_making ha
    · obtain rfl : st = a.2 := by simpa using h
      exact proposed_of_making ha
  · obtain ⟨f, hf, h⟩ := List.mem_flatMap.mp h
    rw [keying_eq hT hthere hf] at h
    split_ifs at h with hr hw hx
    · cases h
    · obtain rfl := List.mem_singleton.mp h
      exact .waits f.column
    · obtain rfl | rfl : st = .dropForeignKey T.name (db.keyName T.name f.column) ∨
          st = .addForeignKey T.name f := by simpa using h
      · exact .unkey f hf hr hx
      · exact .key f hf hr hw
    · obtain rfl : st = .addForeignKey T.name f := by simpa using h
      exact .key f hf hr hw

/-- What is proposed for a table is about it. -/
theorem about_of_mem (hT : T ∈ M.tables) (h : st ∈ statementsOf (M.against db) db.keyName T) :
    st.about = T.name := by
  by_cases hthere : T.name ∈ db.tables
  · cases proposed_of_mem hT hthere h <;> rfl
  · rw [statementsOf_gone hT hthere, List.mem_cons, List.mem_map] at h
    obtain rfl | ⟨i, -, rfl⟩ := h <;> rfl

end FastKit.Schema
