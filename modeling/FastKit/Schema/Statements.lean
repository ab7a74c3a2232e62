import FastKit.Schema.Shapes

/-! # What statements do to a database

What one statement that is carried out adds and takes, and from it what a run of statements does:
names of columns stay, whatever is there came with a statement or was there before, and what went
was dropped by its name. A statement about one table leaves every other one as it is.
-/

namespace FastKit.Schema

open Database

variable {db s s' : Database} {st : Statement} {table name : String}

def Statement.about : Statement → String
  | .createTable T => T.name
  | .createIndex table _ => table
  | .addUnique table _ => table
  | .addColumn table _ _ => table
  | .dropDefault table _ => table
  | .dropIndex table _ => table
  | .addForeignKey table _ => table
  | .dropForeignKey table _ => table
  | .humanDecides table _ => table
  | .waits table _ => table

theorem execute_createTable {T : Table} (h : s.execute (.createTable T) = some s') :
    (T.name ∉ s.tables ∧ ∀ f ∈ T.foreignKeys,
      f.refTable = T.name ∨ s.HasColumn f.refTable f.refColumn) ∧
    s' = {
      tables := s.tables ++ [T.name]
      columns := s.columns ++ T.columns.map (Column.row T.name)
      indexes := s.indexes ++ (T.primary.toList ++ T.uniques.map Unique.index ++
        T.foreignKeys.filterMap ForeignKey.given).map (Index.row T.name)
      keys := s.keys ++ T.foreignKeys.map fun f => ⟨none, f.row T.name⟩ } := by
  rw [execute] at h
  split_ifs at h with hc
  exact ⟨hc, (Option.some.inj h).symm⟩

theorem addIndex_eq_some {i : Index} (h : s.addIndex table i = some s') :
    (table ∈ s.tables ∧ ¬ s.HasIndex table i.name ∧ ∀ c ∈ i.columns, s.HasColumn table c) ∧
      s' = { s with indexes := s.indexes ++ [i.row table] } := by
  rw [addIndex] at h
  split_ifs at h with hc
  exact ⟨hc, (Option.some.inj h).symm⟩

theorem execute_addColumn {c : Column} {filled : Option String}
    (h : s.execute (.addColumn table c filled) = some s') :
    (table ∈ s.tables ∧ ¬ s.HasColumn table c.name) ∧
      s' = { s with columns := s.columns ++ [{ c.row table with default := filled.getD "" }] } := by
  rw [execute] at h
  split_ifs at h with hc
  exact ⟨hc, (Option.some.inj h).symm⟩

theorem execute_dropDefault {column : String} (h : s.execute (.dropDefault table column) = some s') :
    s.HasColumn table column ∧ s' = { s with columns := s.columns.map fun r =>
      if r.table = table ∧ r.name = column then { r with default := "" } else r } := by
  rw [execute] at h
  split_ifs at h with hc
  exact ⟨hc, (Option.some.inj h).symm⟩

theorem execute_dropIndex (h : s.execute (.dropIndex table name) = some s') :
    s.HasIndex table name ∧
      s' = { s with indexes := s.indexes.filter fun r => ¬ (r.table = table ∧ r.name = name) } := by
  rw [execute] at h
  split_ifs at h with hc
  exact ⟨hc, (Option.some.inj h).symm⟩

theorem execute_addForeignKey {f : ForeignKey} (h : s.execute (.addForeignKey table f) = some s') :
    (table ∈ s.tables ∧ ¬ s.HasKey table f.column ∧ s.HasColumn table f.column ∧
      s.HasColumn f.refTable f.refColumn) ∧
      s' = { s with
        keys := s.keys ++ [⟨none, f.row table⟩]
        indexes := s.indexes ++ s.givenFor table f } := by
  rw [execute] at h
  split_ifs at h with hc
  exact ⟨hc, (Option.some.inj h).symm⟩

theorem execute_dropForeignKey (h : s.execute (.dropForeignKey table name) = some s') :
    (∃ k ∈ s.keys, k.row.table = table ∧ k.name = some name) ∧
      s' = { s with
        keys := s.keys.filter fun k => ¬ (k.row.table = table ∧ k.name = some name) } := by
  rw [execute] at h
  split_ifs at h with hc
  exact ⟨hc, (Option.some.inj h).symm⟩

def Statement.AddsColumn (table name : String) : Statement → Prop
  | .createTable T => T.name = table ∧ name ∈ T.columns.map Column.name
  | .addColumn t c _ => t = table ∧ c.name = name
  | _ => False

def Statement.AddsIndex (r : IndexRow) : Statement → Prop
  | .createTable T => T.name = r.table
  | .createIndex t i => i.row t = r
  | .addUnique t u => u.index.row t = r
  | .addForeignKey t f => ∃ i ∈ f.given, i.row t = r
  | _ => False

/-- What one statement that is carried out does: names of columns stay, what is there came with it
or was there, and what went was dropped by name. -/
structure Effect (s : Database) (st : Statement) (s' : Database) : Prop where
  column_kept : ∀ t n, s.HasColumn t n → s'.HasColumn t n
  column_added : ∀ t n, s'.HasColumn t n → s.HasColumn t n ∨ st.AddsColumn t n
  index_kept : ∀ r ∈ s.indexes, r ∈ s'.indexes ∨ st = .dropIndex r.table r.name
  index_added : ∀ r ∈ s'.indexes, r ∈ s.indexes ∨ (st.AddsIndex r ∧ ¬ s.HasIndex r.table r.name) ∨
    ∃ T, st = .createTable T
  key_kept : ∀ k ∈ s.keys, k ∈ s'.keys ∨ ∃ n, st = .dropForeignKey k.row.table n ∧ k.name = some n

/-- A statement that only adds indexes, to a name that is free. -/
theorem effect_of_indexes {rows : List IndexRow} (hs : s' = { s with indexes := s.indexes ++ rows })
    (hrows : ∀ r ∈ rows, st.AddsIndex r ∧ ¬ s.HasIndex r.table r.name) : Effect s st s' := by
  subst hs
  refine ⟨fun t n h => h, fun t n h => .inl h, fun r h => .inl (List.mem_append_left _ h), ?_,
    fun k h => .inl h⟩
  intro r hr
  obtain hr | hr := List.mem_append.mp hr
  · exact .inl hr
  · exact .inr (.inl (hrows r hr))

theorem effect_of_execute (h : s.execute st = some s') : Effect s st s' := by
  cases st with
  | createTable T =>
    obtain ⟨⟨hfree, -⟩, rfl⟩ := execute_createTable h
    refine ⟨?_, ?_, fun r hr => .inl (List.mem_append_left _ hr), fun r _ => .inr (.inr ⟨T, rfl⟩),
      fun k hk => .inl (List.mem_append_left _ hk)⟩
    · rintro t n ⟨r, hr, hn⟩
      exact ⟨r, List.mem_append_left _ hr, hn⟩
    · rintro t n ⟨r, hr, ht, hn⟩
      obtain hr | hr := List.mem_append.mp hr
      · exact .inl ⟨r, hr, ht, hn⟩
      · obtain ⟨c, hc, rfl⟩ := List.mem_map.mp hr
        exact .inr ⟨ht, List.mem_map.mpr ⟨c, hc, hn⟩⟩
  | createIndex t i =>
    obtain ⟨⟨-, hfree, -⟩, hs⟩ := addIndex_eq_some h
    refine effect_of_indexes hs fun r hr => ?_
    obtain rfl := List.mem_singleton.mp hr
    exact ⟨rfl, hfree⟩
  | addUnique t u =>
    obtain ⟨⟨-, hfree, -⟩, hs⟩ := addIndex_eq_some h
    refine effect_of_indexes hs fun r hr => ?_
    obtain rfl := List.mem_singleton.mp hr
    exact ⟨rfl, hfree⟩
  | addColumn t c filled =>
    obtain ⟨⟨-, hfree⟩, rfl⟩ := execute_addColumn h
    refine ⟨?_, ?_, fun r hr => .inl hr, fun r hr => .inl hr, fun k hk => .inl hk⟩
    · rintro t n ⟨r, hr, hn⟩
      exact ⟨r, List.mem_append_left _ hr, hn⟩
    · rintro t n ⟨r, hr, ht, hn⟩
      obtain hr | hr := List.mem_append.mp hr
      · exact .inl ⟨r, hr, ht, hn⟩
      · obtain rfl := List.mem_singleton.mp hr
        exact .inr ⟨ht, hn⟩
  | dropDefault t c =>
    obtain ⟨-, rfl⟩ := execute_dropDefault h
    refine ⟨?_, ?_, fun r hr => .inl hr, fun r hr => .inl hr, fun k hk => .inl hk⟩
    · rintro t n ⟨r, hr, ht, hn⟩
      refine ⟨_, List.mem_map_of_mem hr, ?_, ?_⟩ <;> split_ifs <;> assumption
    · rintro t n ⟨r, hr, ht, hn⟩
      obtain ⟨q, hq, rfl⟩ := List.mem_map.mp hr
      refine .inl ⟨q, hq, ?_, ?_⟩
      · rw [← ht]; split_ifs <;> rfl
      · rw [← hn]; split_ifs <;> rfl
  | dropIndex t n =>
    obtain ⟨-, rfl⟩ := execute_dropIndex h
    refine ⟨fun t n h => h, fun t n h => .inl h, ?_, fun r hr => .inl (List.mem_of_mem_filter hr),
      fun k hk => .inl hk⟩
    intro r hr
    by_cases hn : r.table = t ∧ r.name = n
    · exact .inr (by rw [hn.1, hn.2])
    · exact .inl (List.mem_filter.mpr ⟨hr, decide_eq_true hn⟩)
  | addForeignKey t f =>
    obtain ⟨-, rfl⟩ := execute_addForeignKey h
    refine ⟨fun t n h => h, fun t n h => .inl h, fun r hr => .inl (List.mem_append_left _ hr), ?_,
      fun k hk => .inl (List.mem_append_left _ hk)⟩
    intro r hr
    obtain hr | hr := List.mem_append.mp hr
    · exact .inl hr
    · obtain ⟨i, hi, rfl⟩ := List.mem_map.mp hr
      obtain ⟨hi, hfree⟩ := List.mem_filter.mp hi
      exact .inr (.inl ⟨⟨i, Option.mem_toList.mp hi, rfl⟩, of_decide_eq_true hfree⟩)
  | dropForeignKey t n =>
    obtain ⟨-, rfl⟩ := execute_dropForeignKey h
    refine ⟨fun t n h => h, fun t n h => .inl h, fun r hr => .inl hr, fun r hr => .inl hr, ?_⟩
    intro k hk
    by_cases hn : k.row.table = t ∧ k.name = some n
    · exact .inr ⟨n, by rw [hn.1], hn.2⟩
    · exact .inl (List.mem_filter.mpr ⟨hk, decide_eq_true hn⟩)
  | humanDecides t c =>
    obtain rfl := Option.some.inj h
    exact ⟨fun t n h => h, fun t n h => .inl h, fun r hr => .inl hr, fun r hr => .inl hr,
      fun k hk => .inl hk⟩
  | waits t n =>
    obtain rfl := Option.some.inj h
    exact ⟨fun t n h => h, fun t n h => .inl h, fun r hr => .inl hr, fun r hr => .inl hr,
      fun k hk => .inl hk⟩

/-- Two databases that hold the same of a table. -/
structure Agree (table : String) (s s' : Database) : Prop where
  tables : table ∈ s'.tables ↔ table ∈ s.tables
  columns : ∀ r : ColumnRow, r.table = table → (r ∈ s'.columns ↔ r ∈ s.columns)
  indexes : ∀ r : IndexRow, r.table = table → (r ∈ s'.indexes ↔ r ∈ s.indexes)
  keys : ∀ k : Key, k.row.table = table → (k ∈ s'.keys ↔ k ∈ s.keys)

theorem Agree.refl (table : String) (s : Database) : Agree table s s :=
  ⟨Iff.rfl, fun _ _ => Iff.rfl, fun _ _ => Iff.rfl, fun _ _ => Iff.rfl⟩

theorem Agree.trans {s'' : Database} (h : Agree table s s') (h' : Agree table s' s'') :
    Agree table s s'' :=
  ⟨h'.tables.trans h.tables, fun r hr => (h'.columns r hr).trans (h.columns r hr),
    fun r hr => (h'.indexes r hr).trans (h.indexes r hr),
    fun k hk => (h'.keys k hk).trans (h.keys k hk)⟩

/-- Rows of one table that are added leave the rows of another one as they are. -/
theorem mem_append_of_ne {α : Type} (of : α → String) {rows added : List α} {a : α}
    (h : ∀ b ∈ added, of b = name) (ha : of a = table) (hne : table ≠ name) :
    a ∈ rows ++ added ↔ a ∈ rows := by
  rw [List.mem_append, or_iff_left]
  exact fun hmem => hne (ha.symm.trans (h a hmem))

/-- A statement about another table leaves a table as it is. -/
theorem agree_of_execute (h : s.execute st = some s') (hne : table ≠ st.about) :
    Agree table s s' := by
  have hindex {t : String} {i : Index} (h : s.addIndex t i = some s') (hne : table ≠ t) :
      Agree table s s' := by
    obtain ⟨-, rfl⟩ := addIndex_eq_some h
    refine ⟨Iff.rfl, fun _ _ => Iff.rfl, fun r hr => ?_, fun _ _ => Iff.rfl⟩
    exact mem_append_of_ne IndexRow.table (by simp [Index.row]) hr hne
  cases st with
  | createTable T =>
    obtain ⟨-, rfl⟩ := execute_createTable h
    refine ⟨?_, fun r hr => ?_, fun r hr => ?_, fun k hk => ?_⟩
    · exact mem_append_of_ne id (fun b hb => List.mem_singleton.mp hb) rfl hne
    · refine mem_append_of_ne ColumnRow.table (fun b hb => ?_) hr hne
      obtain ⟨c, -, rfl⟩ := List.mem_map.mp hb
      rfl
    · refine mem_append_of_ne IndexRow.table (fun b hb => ?_) hr hne
      obtain ⟨i, -, rfl⟩ := List.mem_map.mp hb
      rfl
    · refine mem_append_of_ne (fun k : Key => k.row.table) (fun b hb => ?_) hk hne
      obtain ⟨f, -, rfl⟩ := List.mem_map.mp hb
      rfl
  | createIndex t i => exact hindex h hne
  | addUnique t u => exact hindex h hne
  | addColumn t c filled =>
    obtain ⟨-, rfl⟩ := execute_addColumn h
    refine ⟨Iff.rfl, fun r hr => ?_, fun _ _ => Iff.rfl, fun _ _ => Iff.rfl⟩
    exact mem_append_of_ne ColumnRow.table
      (fun b hb => by obtain rfl := List.mem_singleton.mp hb; rfl) hr hne
  | dropDefault t c =>
    obtain ⟨-, rfl⟩ := execute_dropDefault h
    refine ⟨Iff.rfl, fun r hr => ?_, fun _ _ => Iff.rfl, fun _ _ => Iff.rfl⟩
    rw [List.mem_map]
    constructor
    · rintro ⟨q, hq, rfl⟩
      split_ifs at hr ⊢ with hc
      · exact absurd (hr.symm.trans hc.1) hne
      · exact hq
    · intro hmem
      refine ⟨r, hmem, if_neg fun hc => hne (hr.symm.trans hc.1)⟩
  | dropIndex t n =>
    obtain ⟨-, rfl⟩ := execute_dropIndex h
    refine ⟨Iff.rfl, fun _ _ => Iff.rfl, fun r hr => ?_, fun _ _ => Iff.rfl⟩
    rw [List.mem_filter, and_iff_left]
    exact decide_eq_true fun hc => hne (hr.symm.trans hc.1)
  | addForeignKey t f =>
    obtain ⟨-, rfl⟩ := execute_addForeignKey h
    refine ⟨Iff.rfl, fun _ _ => Iff.rfl, fun r hr => ?_, fun k hk => ?_⟩
    · refine mem_append_of_ne IndexRow.table (fun b hb => ?_) hr hne
      obtain ⟨i, -, rfl⟩ := List.mem_map.mp hb
      rfl
    · exact mem_append_of_ne (fun k : Key => k.row.table)
        (fun b hb => by obtain rfl := List.mem_singleton.mp hb; rfl) hk hne
  | dropForeignKey t n =>
    obtain ⟨-, rfl⟩ := execute_dropForeignKey h
    refine ⟨Iff.rfl, fun _ _ => Iff.rfl, fun _ _ => Iff.rfl, fun k hk => ?_⟩
    rw [List.mem_filter, and_iff_left]
    exact decide_eq_true fun hc => hne (hk.symm.trans hc.1)
  | humanDecides t c => obtain rfl := Option.some.inj h; exact .refl _ _
  | waits t n => obtain rfl := Option.some.inj h; exact .refl _ _

/-! ## Runs -/

variable {ss xs ys : List Statement}

@[simp] theorem run_nil : s.run [] = some s := rfl

theorem run_cons : s.run (st :: ss) = (s.execute st).bind fun m => m.run ss := rfl

theorem run_append : s.run (xs ++ ys) = (s.run xs).bind fun m => m.run ys :=
  List.foldlM_append

theorem run_cons_eq_some (h : s.run (st :: ss) = some s') :
    ∃ m, s.execute st = some m ∧ m.run ss = some s' := by
  rw [run_cons] at h
  exact Option.bind_eq_some_iff.mp h

theorem run_append_eq_some (h : s.run (xs ++ ys) = some s') :
    ∃ m, s.run xs = some m ∧ m.run ys = some s' := by
  rw [run_append] at h
  exact Option.bind_eq_some_iff.mp h

theorem hasColumn_of_run (h : s.run ss = some s') (hc : s.HasColumn table name) :
    s'.HasColumn table name := by
  induction ss generalizing s with
  | nil => exact Option.some.inj h ▸ hc
  | cons st ss ih =>
    obtain ⟨m, hm, h⟩ := run_cons_eq_some h
    exact ih h ((effect_of_execute hm).column_kept _ _ hc)

theorem column_added_of_run (h : s.run ss = some s') (hc : s'.HasColumn table name) :
    s.HasColumn table name ∨ ∃ st ∈ ss, st.AddsColumn table name := by
  induction ss generalizing s with
  | nil => exact .inl (Option.some.inj h ▸ hc)
  | cons st ss ih =>
    obtain ⟨m, hm, h⟩ := run_cons_eq_some h
    obtain hc | ⟨u, hu, ha⟩ := ih h
    · obtain hc | ha := (effect_of_execute hm).column_added _ _ hc
      · exact .inl hc
      · exact .inr ⟨st, List.mem_cons_self, ha⟩
    · exact .inr ⟨u, List.mem_cons_of_mem _ hu, ha⟩

/-- An index that is there was there, or came with a statement under a name that was free or was
dropped. -/
theorem index_added_of_run {r : IndexRow} (h : s.run ss = some s') (hr : r ∈ s'.indexes) :
    r ∈ s.indexes ∨
      ((∃ st ∈ ss, st.AddsIndex r) ∧
        (¬ s.HasIndex r.table r.name ∨ .dropIndex r.table r.name ∈ ss)) ∨
      ∃ T, .createTable T ∈ ss := by
  induction ss generalizing s with
  | nil => exact .inl (Option.some.inj h ▸ hr)
  | cons st ss ih =>
    obtain ⟨m, hm, h⟩ := run_cons_eq_some h
    have he := effect_of_execute hm
    obtain hr | ⟨⟨u, hu, ha⟩, hfree⟩ | ⟨T, hT⟩ := ih h
    · obtain hr | ⟨ha, hfree⟩ | ⟨T, rfl⟩ := he.index_added r hr
      · exact .inl hr
      · exact .inr (.inl ⟨⟨st, List.mem_cons_self, ha⟩, .inl hfree⟩)
      · exact .inr (.inr ⟨T, List.mem_cons_self⟩)
    · refine .inr (.inl ⟨⟨u, List.mem_cons_of_mem _ hu, ha⟩, ?_⟩)
      obtain hfree | hdrop := hfree
      · by_cases hs : s.HasIndex r.table r.name
        · obtain ⟨q, hq, ht, hn⟩ := hs
          obtain hq | hst := he.index_kept q hq
          · exact absurd ⟨q, hq, ht, hn⟩ hfree
          · rw [ht, hn] at hst
            exact .inr (by simp [hst])
        · exact .inl hs
      · exact .inr (List.mem_cons_of_mem _ hdrop)
    · exact .inr (.inr ⟨T, List.mem_cons_of_mem _ hT⟩)

theorem key_kept_of_run {k : Key} (h : s.run ss = some s') (hk : k ∈ s.keys) :
    k ∈ s'.keys ∨ ∃ n, .dropForeignKey k.row.table n ∈ ss ∧ k.name = some n := by
  induction ss generalizing s with
  | nil => exact .inl (Option.some.inj h ▸ hk)
  | cons st ss ih =>
    obtain ⟨m, hm, h⟩ := run_cons_eq_some h
    obtain hk | ⟨n, rfl, hn⟩ := (effect_of_execute hm).key_kept k hk
    · obtain hk | ⟨n, hd, hn⟩ := ih h hk
      · exact .inl hk
      · exact .inr ⟨n, List.mem_cons_of_mem _ hd, hn⟩
    · exact .inr ⟨n, List.mem_cons_self, hn⟩

theorem agree_of_run (h : s.run ss = some s') (hne : ∀ st ∈ ss, table ≠ st.about) :
    Agree table s s' := by
  induction ss generalizing s with
  | nil => exact Option.some.inj h ▸ .refl _ _
  | cons st ss ih =>
    obtain ⟨m, hm, h⟩ := run_cons_eq_some h
    exact (agree_of_execute hm (hne st List.mem_cons_self)).trans
      (ih h fun u hu => hne u (List.mem_cons_of_mem _ hu))

end FastKit.Schema
