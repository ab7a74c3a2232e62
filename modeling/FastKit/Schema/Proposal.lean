import FastKit.Schema.Waiting
import Mathlib.Data.List.Pairwise

/-! # A proposal that runs

What a proposal promises of a table, and what a database has to be for it: where one of the
conditions fails, the server refuses a statement, or something of the models is not there in the
end.
-/

namespace FastKit.Schema

variable {M : Metadata} {db : Stored} {T : Table} {c : Column} {f : ForeignKey} {i : Index}
  {s s' : Database} {st : Statement} {ss xs ys : List Statement}

/-- A key that is missing and not waited for, so that a statement brings it. -/
def ToAdd (db : Stored) (T : Table) (f : ForeignKey) : Prop :=
  T.name ∉ db.tables ∨ (f.row T.name ∉ db.shape.keys ∧ ¬ Waits db T f.column)

/-- A key that is missing and waits for a decision about its column. -/
def KeyWaits (db : Stored) (T : Table) (f : ForeignKey) : Prop :=
  f.row T.name ∉ db.shape.keys ∧ Waits db T f.column

/-- All of a table is there as the models have it, except what waits for a decision. -/
structure Brought (db : Stored) (T : Table) (s : Database) : Prop where
  table : T.name ∈ s.tables
  columns : ∀ c ∈ T.columns, c.row T.name ∈ s.columns ∨ Undecided db T c
  primary : ∀ i ∈ T.primary, i.row T.name ∈ s.indexes
  indexes : ∀ i ∈ T.indexes ++ T.uniques.map Unique.index,
    i.row T.name ∈ s.indexes ∨ (i.row T.name ∉ db.indexes ∧ ∃ n ∈ i.columns, Waits db T n)
  keys : ∀ f ∈ T.foreignKeys, f.row T.name ∈ s.shape.keys ∨ KeyWaits db T f
  given : ∀ f ∈ T.foreignKeys, ∀ i ∈ f.given, i.row T.name ∈ s.indexes ∨ KeyWaits db T f

/-- A statement drops what the models keep as the database has it. -/
def DropsKept (M : Metadata) (db : Stored) (st : Statement) : Prop :=
  (∃ r ∈ db.indexes, r ∈ M.shape.indexes ∧ st = .dropIndex r.table r.name) ∨
    ∃ k ∈ db.keys, k.row ∈ M.shape.keys ∧
      ∃ n, st = .dropForeignKey k.row.table n ∧ k.name = some n

/-- The proposal runs, drops nothing that is kept, and brings all tables of the models. -/
def Proposes (M : Metadata) (db : Stored) : Prop :=
  (∀ st ∈ M.proposal db, ¬ DropsKept M db st) ∧
    ∃ final, db.run (M.proposal db) = some final ∧ ∀ T ∈ M.tables, Brought db T final

/-- What a table that is there has to be for its statements to run and to bring it. -/
structure Settled (db : Stored) (T : Table) : Prop where
  /-- No column changed its shape, other than one somebody decides about. -/
  columns : ∀ c ∈ T.columns, c.row T.name ∉ db.columns → ¬ (c.nullable = false ∧ filling c = none) →
    ¬ db.HasColumn T.name c.name
  /-- The primary key is as the models have it. -/
  primary : ∀ i ∈ T.primary, i.row T.name ∈ db.indexes
  /-- A column that gets a key has one at most. -/
  single : ∀ f ∈ T.foreignKeys, ToAdd db T f → ∀ k ∈ db.keys, ∀ k' ∈ db.keys,
    k.row.table = T.name → k.row.column = f.column →
    k'.row.table = T.name → k'.row.column = f.column → k = k'
  /-- An index a server gives a key is there, or comes with the key. -/
  given : ∀ f ∈ T.foreignKeys, ∀ i ∈ f.given, i.row T.name ∈ db.indexes ∨ KeyWaits db T f ∨
    (ToAdd db T f ∧ ¬ db.HasIndex T.name i.name)

/-- What a database has to be for the proposal to run and to bring the models. -/
structure Fits (M : Metadata) (db : Stored) : Prop where
  settled : ∀ T ∈ M.tables, T.name ∈ db.tables → Settled db T
  /-- No key that is added refers to a column that is not there and waits. -/
  referred : ∀ T ∈ M.tables, ∀ f ∈ T.foreignKeys, ToAdd db T f →
    ∀ R ∈ M.tables, R.name = f.refTable → Waits db R f.refColumn →
      db.HasColumn R.name f.refColumn

/-! ## What the statements are carried out on -/

theorem mem_proposal :
    st ∈ M.proposal db ↔ ∃ T ∈ M.tables, st ∈ statementsOf (M.against db) db.keyName T :=
  List.mem_flatMap

/-- A statement about a table that is there is one proposed for it. -/
theorem proposed_of_about (hT : T ∈ M.tables) (hthere : T.name ∈ db.tables)
    (h : st ∈ M.proposal db) (habout : st.about = T.name) : Proposed db T st := by
  obtain ⟨T', hT', h⟩ := mem_proposal.mp h
  obtain rfl := table_eq hT' hT ((about_of_mem hT' h).symm.trans habout)
  exact proposed_of_mem hT' hthere h

/-- A table that is created was not there. -/
theorem gone_of_createTable (h : .createTable T ∈ M.proposal db) : T.name ∉ db.tables := by
  obtain ⟨T', hT', h⟩ := mem_proposal.mp h
  intro hthere
  have habout : T.name = T'.name := about_of_mem hT' h
  rw [habout] at hthere
  cases proposed_of_mem hT' hthere h

/-- A column that is there and is not waited for is brought by a statement. -/
theorem addColumn_mem (hT : T ∈ M.tables) (hthere : T.name ∈ db.tables) (hc : c ∈ T.columns)
    (hgone : c.row T.name ∉ db.columns) (hknown : ¬ (c.nullable = false ∧ filling c = none)) :
    ∃ filled, .addColumn T.name c filled ∈ M.proposal db := by
  obtain ⟨filled, h⟩ := adding_column (T := T) hknown
  refine ⟨filled, mem_proposal.mpr ⟨T, hT, ?_⟩⟩
  rw [statementsOf_there hT hthere, List.append_assoc]
  exact List.mem_append_left _ (List.mem_flatMap.mpr ⟨c, (mem_arriving hT).mpr ⟨hc, hgone⟩, h⟩)

theorem addForeignKey_mem (hT : T ∈ M.tables) (hthere : T.name ∈ db.tables)
    (hf : f ∈ T.foreignKeys) (hgone : f.row T.name ∉ db.shape.keys)
    (hw : ¬ Waits db T f.column) : .addForeignKey T.name f ∈ M.proposal db := by
  classical
  refine mem_proposal.mpr ⟨T, hT, ?_⟩
  rw [statementsOf_there hT hthere]
  refine List.mem_append_right _ (List.mem_flatMap.mpr ⟨f, hf, ?_⟩)
  rw [keying_eq hT hthere hf, if_neg hgone, if_neg hw]
  simp

theorem createTable_mem (hT : T ∈ M.tables) (hgone : T.name ∉ db.tables) :
    .createTable T ∈ M.proposal db := by
  refine mem_proposal.mpr ⟨T, hT, ?_⟩
  rw [statementsOf_gone hT hgone]
  exact List.mem_cons_self

/-- A statement of a run that goes through was carried out on what those before it left. -/
theorem executed_of_mem (h : s.run ss = some s') (hst : st ∈ ss) :
    ∃ xs m m', (∀ u ∈ xs, u ∈ ss) ∧ s.run xs = some m ∧ m.execute st = some m' := by
  obtain ⟨xs, ys, rfl⟩ := List.append_of_mem hst
  obtain ⟨m, hm, h⟩ := run_append_eq_some h
  obtain ⟨m', hm', -⟩ := run_cons_eq_some h
  exact ⟨xs, m, m', fun u hu => List.mem_append_left _ hu, hm, hm'⟩

/-- The statements of a table run on a database that has of it what the first one had, and the
others leave it as it is. -/
theorem run_of_table (h : db.run (M.proposal db) = some s') (hT : T ∈ M.tables) :
    ∃ m m', Agree T.name db.toDatabase m ∧
      m.run (statementsOf (M.against db) db.keyName T) = some m' ∧ Agree T.name m' s' := by
  obtain ⟨xs, ys, hsplit⟩ := List.append_of_mem hT
  have hnames := M.names
  rw [hsplit, List.map_append, List.map_cons] at hnames
  have hxs : ∀ T' ∈ xs, T.name ≠ T'.name := by
    intro T' hT' he
    exact List.disjoint_of_nodup_append hnames (List.mem_map_of_mem hT') (by simp [he])
  have hys : ∀ T' ∈ ys, T.name ≠ T'.name := by
    intro T' hT' he
    exact (List.nodup_cons.mp hnames.of_append_right).1 (he ▸ List.mem_map_of_mem hT')
  have hothers : ∀ ts : List Table, (∀ T' ∈ ts, T' ∈ M.tables ∧ T.name ≠ T'.name) →
      ∀ st ∈ ts.flatMap (statementsOf (M.against db) db.keyName), T.name ≠ st.about := by
    intro ts hts st hst
    obtain ⟨T', hT', hst⟩ := List.mem_flatMap.mp hst
    rw [about_of_mem (hts T' hT').1 hst]
    exact (hts T' hT').2
  rw [Metadata.proposal, statementsFor, hsplit, List.flatMap_append, List.flatMap_cons] at h
  obtain ⟨m, hm, h⟩ := run_append_eq_some h
  obtain ⟨m', hm', h⟩ := run_append_eq_some h
  refine ⟨m, m', agree_of_run hm (hothers xs fun T' hT' => ⟨?_, hxs T' hT'⟩), hm',
    agree_of_run h (hothers ys fun T' hT' => ⟨?_, hys T' hT'⟩)⟩
  · rw [hsplit]
    exact List.mem_append_left _ hT'
  · rw [hsplit]
    exact List.mem_append_right _ (List.mem_cons_of_mem _ hT')

theorem Agree.hasIndex {table name : String} (h : Agree table s s') :
    s'.HasIndex table name ↔ s.HasIndex table name := by
  constructor
  · rintro ⟨r, hr, ht, hn⟩
    exact ⟨r, (h.indexes r ht).mp hr, ht, hn⟩
  · rintro ⟨r, hr, ht, hn⟩
    exact ⟨r, (h.indexes r ht).mpr hr, ht, hn⟩

/-- An index of a table that was there came with a statement proposed for the table, if it was not
there, and under a name that was free or was dropped. -/
theorem index_origin (h : db.run (M.proposal db) = some s') (hT : T ∈ M.tables)
    (hthere : T.name ∈ db.tables) {r : IndexRow} (hr : r ∈ s'.indexes) (ht : r.table = T.name) :
    r ∈ db.indexes ∨ ((∃ st, Proposed db T st ∧ st.AddsIndex r) ∧
      (¬ db.HasIndex T.name r.name ∨ Proposed db T (.dropIndex T.name r.name))) := by
  obtain ⟨m, m', hm, hrun, hm'⟩ := run_of_table h hT
  have hmem {st : Statement} : st ∈ statementsOf (M.against db) db.keyName T → Proposed db T st :=
    proposed_of_mem hT hthere
  obtain hr | ⟨⟨st, hst, ha⟩, hfree⟩ | ⟨T', hT'⟩ :=
    index_added_of_run hrun ((hm'.indexes r ht).mp hr)
  · exact .inl ((hm.indexes r ht).mp hr)
  · rw [ht, hm.hasIndex] at hfree
    exact .inr ⟨⟨st, hmem hst, ha⟩, hfree.imp_right hmem⟩
  · cases hmem hT'

/-! ## Names of one table -/

/-- No name of an index of a kind is one of another kind. -/
theorem index_names (T : Table) :
    (∀ i ∈ T.primary, ∀ j ∈ T.indexes ++ T.uniques.map Unique.index, i.name ≠ j.name) ∧
    (∀ i ∈ T.primary, ∀ j ∈ T.foreignKeys.filterMap ForeignKey.given, i.name ≠ j.name) ∧
    (∀ j ∈ T.indexes ++ T.uniques.map Unique.index,
      ∀ i ∈ T.foreignKeys.filterMap ForeignKey.given, i.name ≠ j.name) ∧
    ((T.indexes ++ T.uniques.map Unique.index).map Index.name).Nodup ∧
    ((T.foreignKeys.filterMap ForeignKey.given).map Index.name).Nodup := by
  have h := T.indexNames
  rw [List.append_assoc, List.append_assoc, ← List.append_assoc T.indexes, List.map_append,
    List.map_append, List.nodup_append, List.nodup_append] at h
  obtain ⟨-, ⟨hmade, hgiven, hmg⟩, hprimary⟩ := h
  refine ⟨fun i hi j hj => ?_, fun i hi j hj => ?_, fun j hj i hi => ?_, hmade, hgiven⟩
  · exact hprimary _ (List.mem_map_of_mem (Option.mem_toList.mpr hi)) _
      (List.mem_append_left _ (List.mem_map_of_mem hj))
  · exact hprimary _ (List.mem_map_of_mem (Option.mem_toList.mpr hi)) _
      (List.mem_append_right _ (List.mem_map_of_mem hj))
  · exact (hmg _ (List.mem_map_of_mem hj) _ (List.mem_map_of_mem hi)).symm

theorem mem_given (hf : f ∈ T.foreignKeys) (hi : i ∈ f.given) :
    i ∈ T.foreignKeys.filterMap ForeignKey.given :=
  List.mem_filterMap.mpr ⟨f, hf, hi⟩

/-- A name of an index that is given is given with one key. -/
theorem given_eq {g : ForeignKey} {j : Index} (hf : f ∈ T.foreignKeys) (hg : g ∈ T.foreignKeys)
    (hi : i ∈ f.given) (hj : j ∈ g.given) (h : i.name = j.name) : f = g := by
  have hnodup := (index_names T).2.2.2.2
  rw [List.Nodup, List.pairwise_map, List.pairwise_filterMap] at hnodup
  have : Std.Symm fun a b : ForeignKey => ∀ i, a.given = some i → ∀ j, b.given = some j →
      i.name ≠ j.name := ⟨fun a b hab i hi j hj => (hab j hj i hi).symm⟩
  by_contra hne
  exact hnodup.forall hf hg hne i hi j hj h

/-! ## What a proposal that runs needs -/

theorem keyName_spec {table column : String} (h : db.HasKey table column) :
    ∃ k ∈ db.keys, k.row.table = table ∧ k.row.column = column ∧
      k.name = some (db.keyName table column) := by
  obtain ⟨k, hk, hrow⟩ := h
  cases hl : (db.keys.filter fun k => k.row.table = table ∧ k.row.column = column).getLast? with
  | none =>
    rw [List.getLast?_eq_none_iff] at hl
    exact absurd (List.mem_filter.mpr ⟨hk, decide_eq_true hrow⟩) (hl ▸ List.not_mem_nil)
  | some k =>
    obtain ⟨hk, hrow⟩ := List.mem_filter.mp (List.mem_of_getLast? hl)
    obtain ⟨ht, hc⟩ := of_decide_eq_true hrow
    obtain ⟨n, hn⟩ := Option.ne_none_iff_exists'.mp (db.named k hk)
    exact ⟨k, hk, ht, hc, by rw [Database.keyName, hl, Option.bind_some, hn, Option.getD_some]⟩

/-- A key of a table that has the name of another one is that one. -/
theorem key_eq {k k' : Key} (hk : k ∈ db.keys) (hk' : k' ∈ db.keys)
    (ht : k.row.table = k'.row.table) (hn : k.name = k'.name) : k = k' :=
  List.inj_on_of_nodup_map db.names hk hk' (by simp [ht, hn])

theorem proposed_dropIndex {table name : String} (h : Proposed db T (.dropIndex table name)) :
    table = T.name ∧ ∃ i ∈ T.indexes ++ T.uniques.map Unique.index,
      i.name = name ∧ i.row T.name ∉ db.indexes := by
  cases h with
  | unindex i hi hgone => exact ⟨rfl, i, hi, rfl, hgone⟩

theorem proposed_dropForeignKey {table name : String}
    (h : Proposed db T (.dropForeignKey table name)) :
    table = T.name ∧ ∃ f ∈ T.foreignKeys, f.row T.name ∉ db.shape.keys ∧
      db.HasKey T.name f.column ∧ db.keyName T.name f.column = name := by
  cases h with
  | unkey f hf hgone hx => exact ⟨rfl, f, hf, hgone, hx, rfl⟩

/-- A proposal drops nothing that is kept. -/
theorem not_dropsKept (h : st ∈ M.proposal db) : ¬ DropsKept M db st := by
  obtain ⟨T, hT, h⟩ := mem_proposal.mp h
  by_cases hthere : T.name ∈ db.tables
  · replace h := proposed_of_mem hT hthere h
    rintro (⟨r, hr, hkept, rfl⟩ | ⟨k, hk, hkept, n, rfl, hn⟩)
    · obtain ⟨ht, i, hi, hname, hgone⟩ := proposed_dropIndex h
      have hplace : r.place = (i.row T.name).place := by
        simp [IndexRow.place, Index.row, ht, hname]
      exact hgone (index_row_unique hT (making_declared hi) r hkept hplace ▸ hr)
    · obtain ⟨ht, f, hf, hgone, hx, hname⟩ := proposed_dropForeignKey h
      obtain ⟨k', hk', ht', hc', hn'⟩ := keyName_spec hx
      obtain rfl := key_eq hk hk' (ht.trans ht'.symm) (by rw [hn, hn', hname])
      have hplace : k.row.place = (f.row T.name).place := by
        simp [KeyRow.place, ForeignKey.row, ht', hc']
      exact hgone (key_row_unique hT hf k.row hkept hplace ▸ List.mem_map_of_mem hk)
  · rw [statementsOf_gone hT hthere, List.mem_cons, List.mem_map] at h
    rintro (⟨r, -, -, rfl⟩ | ⟨k, -, -, n, rfl, -⟩) <;> obtain h | ⟨i, -, h⟩ := h <;> cases h

variable {final : Database}

theorem columns_of_run (h : db.run (M.proposal db) = some final) (hT : T ∈ M.tables)
    (hthere : T.name ∈ db.tables) (hc : c ∈ T.columns) (hgone : c.row T.name ∉ db.columns)
    (hknown : ¬ (c.nullable = false ∧ filling c = none)) : ¬ db.HasColumn T.name c.name := by
  intro hx
  obtain ⟨filled, hst⟩ := addColumn_mem hT hthere hc hgone hknown
  obtain ⟨xs, m, m', -, hm, hm'⟩ := executed_of_mem h hst
  exact (execute_addColumn hm').1.2 (hasColumn_of_run hm hx)

/-- An index that no statement makes was there, or came with its key to a free name. -/
theorem unmade_of_run (h : db.run (M.proposal db) = some final) (hT : T ∈ M.tables)
    (hthere : T.name ∈ db.tables) (hi : i.row T.name ∈ final.indexes)
    (hne : ∀ j ∈ T.indexes ++ T.uniques.map Unique.index, i.name ≠ j.name) :
    i.row T.name ∈ db.indexes ∨ ((∃ f ∈ T.foreignKeys, f.row T.name ∉ db.shape.keys ∧
      ¬ Waits db T f.column ∧ ∃ j ∈ f.given, j.name = i.name) ∧ ¬ db.HasIndex T.name i.name) := by
  obtain hr | ⟨⟨st, hst, ha⟩, hfree⟩ := index_origin h hT hthere hi rfl
  · exact .inl hr
  have hfree : ¬ db.HasIndex T.name i.name := by
    obtain hfree | hdrop := hfree
    · exact hfree
    · obtain ⟨-, j, hj, hn, -⟩ := proposed_dropIndex hdrop
      exact absurd hn.symm (hne j hj)
  have hname {j : Index} (hj : j.row T.name = i.row T.name) : j.name = i.name :=
    congrArg IndexRow.name hj
  cases hst with
  | index j hj => exact absurd (hname ha).symm (hne j (List.mem_append_left _ hj))
  | unique u hu =>
    exact absurd (hname ha).symm (hne _ (List.mem_append_right _ (List.mem_map_of_mem hu)))
  | key f hf hgone hw =>
    obtain ⟨j, hj, he⟩ := ha
    exact .inr ⟨⟨f, hf, hgone, hw, j, hj, hname he⟩, hfree⟩
  | _ => cases ha

theorem primary_of_run (h : db.run (M.proposal db) = some final) (hT : T ∈ M.tables)
    (hthere : T.name ∈ db.tables) (hi : i ∈ T.primary) (hr : i.row T.name ∈ final.indexes) :
    i.row T.name ∈ db.indexes := by
  obtain ⟨hpm, hpg, -⟩ := index_names T
  obtain hr | ⟨⟨f, hf, -, -, j, hj, hn⟩, -⟩ := unmade_of_run h hT hthere hr (hpm i hi)
  · exact hr
  · exact absurd hn.symm (hpg i hi j (mem_given hf hj))

theorem given_of_run (h : db.run (M.proposal db) = some final) (hT : T ∈ M.tables)
    (hthere : T.name ∈ db.tables) (hf : f ∈ T.foreignKeys) (hi : i ∈ f.given)
    (hr : i.row T.name ∈ final.indexes) :
    i.row T.name ∈ db.indexes ∨ (ToAdd db T f ∧ ¬ db.HasIndex T.name i.name) := by
  have hne := (index_names T).2.2.1
  obtain hr | ⟨⟨g, hg, hgone, hw, j, hj, hn⟩, hfree⟩ :=
    unmade_of_run h hT hthere hr fun j hj => hne j hj i (mem_given hf hi)
  · exact .inl hr
  · obtain rfl := given_eq hg hf hj hi hn
    exact .inr ⟨.inr ⟨hgone, hw⟩, hfree⟩

/-- A key that stands when the key of its column is added would stand beside it. -/
theorem single_of_run (h : db.run (M.proposal db) = some final) (hT : T ∈ M.tables)
    (hthere : T.name ∈ db.tables) (hf : f ∈ T.foreignKeys) (hadd : ToAdd db T f) {k : Key}
    (hk : k ∈ db.keys) (ht : k.row.table = T.name) (hc : k.row.column = f.column) :
    k.name = some (db.keyName T.name f.column) := by
  obtain ⟨hgone, hw⟩ := hadd.resolve_left (not_not.mpr hthere)
  obtain ⟨xs, m, m', hxs, hm, hm'⟩ := executed_of_mem h (addForeignKey_mem hT hthere hf hgone hw)
  have hfree : ¬ m.HasKey T.name f.column := (execute_addForeignKey hm').1.2.1
  obtain hkept | ⟨n, hdrop, hn⟩ := key_kept_of_run hm hk
  · exact absurd ⟨k, hkept, ht, hc⟩ hfree
  · have hp := proposed_of_about hT hthere (hxs _ hdrop) ht
    obtain ⟨-, g, hg, -, hx, rfl⟩ := proposed_dropForeignKey hp
    obtain ⟨k', hk', ht', hc', hn'⟩ := keyName_spec hx
    obtain rfl := key_eq hk hk' (ht.trans ht'.symm) (hn.trans hn'.symm)
    rw [hn', ← hc', hc]

/-- A key that is added refers to a column that is there by then. -/
theorem referred_of_run (h : db.run (M.proposal db) = some final) (hT : T ∈ M.tables)
    (hf : f ∈ T.foreignKeys) (hadd : ToAdd db T f) {R : Table} (hR : R ∈ M.tables)
    (hname : R.name = f.refTable) (hw : Waits db R f.refColumn) :
    db.HasColumn R.name f.refColumn := by
  obtain ⟨c, hc, hcn⟩ := hw
  obtain ⟨xs, m, hxs, hm, hx⟩ : ∃ xs m, (∀ u ∈ xs, u ∈ M.proposal db) ∧ db.run xs = some m ∧
      m.HasColumn R.name f.refColumn := by
    rw [hname]
    by_cases hthere : T.name ∈ db.tables
    · obtain ⟨hgone, hw⟩ := hadd.resolve_left (not_not.mpr hthere)
      obtain ⟨xs, m, m', hxs, hm, hm'⟩ :=
        executed_of_mem h (addForeignKey_mem hT hthere hf hgone hw)
      exact ⟨xs, m, hxs, hm, (execute_addForeignKey hm').1.2.2.2⟩
    · obtain ⟨xs, m, m', hxs, hm, hm'⟩ := executed_of_mem h (createTable_mem hT hthere)
      obtain hself | hx := (execute_createTable hm').1.2 f hf
      · exact absurd (hself ▸ hname ▸ hc.there) hthere
      · exact ⟨xs, m, hxs, hm, hx⟩
  obtain hx | ⟨st, hst, ha⟩ := column_added_of_run hm hx
  · exact hx
  · have hmem := hxs st hst
    cases st with
    | createTable T' => exact absurd (ha.1 ▸ hc.there) (gone_of_createTable hmem)
    | addColumn t c' filled =>
      obtain ⟨ht, hn⟩ := ha
      cases proposed_of_about hR hc.there hmem ht with
      | column _ _ hc' _ hknown =>
        obtain rfl := column_eq hc' hc.declared (hn.trans hcn.symm)
        exact absurd ⟨hc.required, hc.unfilled⟩ hknown
    | _ => exact ha.elim

/-- A proposal that runs and brings the models is of a database that fits. -/
theorem fits_of_proposes (h : Proposes M db) : Fits M db := by
  obtain ⟨-, final, hrun, hbrought⟩ := h
  refine ⟨fun T hT hthere => ⟨?_, ?_, ?_, ?_⟩, ?_⟩
  · intro c hc hgone hknown
    exact columns_of_run hrun hT hthere hc hgone hknown
  · intro i hi
    exact primary_of_run hrun hT hthere hi ((hbrought T hT).primary i hi)
  · intro f hf hadd k hk k' hk' ht hc ht' hc'
    have hn := single_of_run hrun hT hthere hf hadd hk ht hc
    have hn' := single_of_run hrun hT hthere hf hadd hk' ht' hc'
    exact key_eq hk hk' (ht.trans ht'.symm) (hn.trans hn'.symm)
  · intro f hf i hi
    obtain hr | hw := (hbrought T hT).given f hf i hi
    · exact (given_of_run hrun hT hthere hf hi hr).imp_right .inr
    · exact .inr (.inl hw)
  · intro T hT f hf hadd R hR hname hw
    exact referred_of_run hrun hT hf hadd hR hname hw

end FastKit.Schema
