import FastKit.Schema.Proposal

/-! # Carrying out a proposal

The statements of a table carried out piece by piece on a database that fits: its columns, what it
is indexed by, its keys, and from them all tables in their order.
-/

namespace FastKit.Schema

open Database
open Picks (sortedBy sortedBy_perm mem_sortedBy)

variable {M : Metadata} {db : Stored} {T : Table} {c : Column} {f : ForeignKey} {i : Index}
  {m m' : Database} {st : Statement}

/-- Pieces run one after another where each one runs on what it needs, leaves the others what they
need and what they did, and finds done what comes before it. -/
theorem run_flatMap {α : Type} {as : List α} (block : α → List Statement) (Inv : Database → Prop)
    (Ready Done : α → Database → Prop) (hnodup : as.Nodup)
    (hstep : ∀ xs a ys, as = xs ++ a :: ys → ∀ m, Inv m → Ready a m → (∀ b ∈ xs, Done b m) →
      ∃ m', m.run (block a) = some m' ∧ Inv m' ∧ Done a m' ∧
        ∀ b ∈ as, b ≠ a → (Ready b m → Ready b m') ∧ (Done b m → Done b m'))
    (hinv : Inv m) (hready : ∀ a ∈ as, Ready a m) :
    ∃ m', m.run (as.flatMap block) = some m' ∧ Inv m' ∧ ∀ a ∈ as, Done a m' := by
  suffices h : ∀ ys xs m, as = xs ++ ys → Inv m → (∀ a ∈ ys, Ready a m) → (∀ a ∈ xs, Done a m) →
      ∃ m', m.run (ys.flatMap block) = some m' ∧ Inv m' ∧ ∀ a ∈ as, Done a m' from
    h as [] m rfl hinv hready (by simp)
  intro ys
  induction ys with
  | nil =>
    intro xs m has hinv _ hdone
    exact ⟨m, rfl, hinv, by simpa [has] using hdone⟩
  | cons a ys ih =>
    intro xs m has hinv hready hdone
    obtain ⟨m₁, hrun, hinv₁, hdone₁, hkeep⟩ :=
      hstep xs a ys has m hinv (hready a List.mem_cons_self) hdone
    have hsplit : as = (xs ++ [a]) ++ ys := by simp [has]
    have hne {b : α} (hb : b ∈ xs ∨ b ∈ ys) : b ∈ as ∧ b ≠ a := by
      rw [has, List.nodup_append, List.nodup_cons] at hnodup
      obtain ⟨-, ⟨hy, -⟩, hx⟩ := hnodup
      obtain hb | hb := hb
      · exact ⟨by simp [has, hb], hx b hb a List.mem_cons_self⟩
      · exact ⟨by simp [has, hb], fun he => hy (he ▸ hb)⟩
    obtain ⟨m', hrun', hinv', hdone'⟩ := ih (xs ++ [a]) m₁ hsplit hinv₁
      (fun b hb => ((hkeep b (hne (.inr hb)).1 (hne (.inr hb)).2).1
        (hready b (List.mem_cons_of_mem _ hb))))
      (fun b hb => by
        obtain hb | hb := List.mem_append.mp hb
        · exact (hkeep b (hne (.inl hb)).1 (hne (.inl hb)).2).2 (hdone b hb)
        · exact List.mem_singleton.mp hb ▸ hdone₁)
    refine ⟨m', ?_, hinv', hdone'⟩
    rw [List.flatMap_cons, run_append, hrun, Option.bind_some, hrun']

/-! ## Columns -/

/-- A column with a value for the rows of today arrives as the models have it. -/
theorem run_adding (ht : T.name ∈ m.tables) (hknown : ¬ (c.nullable = false ∧ filling c = none))
    (hfree : ¬ m.HasColumn T.name c.name) :
    m.run (adding T c) = some { m with columns := m.columns ++ [c.row T.name] } := by
  have hadd (filled : Option String) : m.execute (.addColumn T.name c filled) =
      some { m with columns := m.columns ++ [{ c.row T.name with default := filled.getD "" }] } :=
    if_pos ⟨ht, hfree⟩
  rw [adding]
  cases hn : c.nullable
  · cases hf : filling c with
    | none => exact absurd ⟨hn, hf⟩ hknown
    | some value =>
      have hdrop : HasColumn { m with
          columns := m.columns ++ [{ c.row T.name with default := value }] } T.name c.name :=
        ⟨_, List.mem_append_right _ (List.mem_singleton_self _), rfl, rfl⟩
      have hsame : (m.columns.map fun r =>
          if r.table = T.name ∧ r.name = c.name then { r with default := "" } else r) =
            m.columns.map id :=
        List.map_congr_left fun q hq => if_neg fun hc => hfree ⟨q, hq, hc⟩
      simp only [Bool.false_eq_true, if_false, run_cons, hadd, Option.bind_some, Option.getD_some]
      rw [execute, if_pos hdrop, List.map_append, hsame, List.map_id]
      simp [Column.row]
  · simp only [if_true, run_cons, hadd, Option.bind_some, run_nil]
    rfl

/-- The columns that arrive on a table. -/
theorem run_arriving (ht : T.name ∈ m.tables)
    (hfree : ∀ c ∈ arriving (M.against db) T, ¬ (c.nullable = false ∧ filling c = none) →
      ¬ m.HasColumn T.name c.name) :
    ∃ cols, m.run ((arriving (M.against db) T).flatMap (adding T)) =
        some { m with columns := cols } ∧ (∀ r ∈ m.columns, r ∈ cols) ∧
      ∀ c ∈ arriving (M.against db) T, ¬ (c.nullable = false ∧ filling c = none) →
        c.row T.name ∈ cols := by
  obtain ⟨m', hrun, ⟨⟨cols, rfl⟩, hkept⟩, hdone⟩ := run_flatMap (m := m) (adding T)
    (fun s => (∃ cols, s = { m with columns := cols }) ∧ ∀ r ∈ m.columns, r ∈ s.columns)
    (fun c s => ¬ (c.nullable = false ∧ filling c = none) → ¬ s.HasColumn T.name c.name)
    (fun c s => ¬ (c.nullable = false ∧ filling c = none) → c.row T.name ∈ s.columns)
    (.of_map _ (arriving_nodup M db T))
    (by
      rintro xs c ys has - ⟨⟨cols, rfl⟩, hkept⟩ hready -
      by_cases hknown : c.nullable = false ∧ filling c = none
      · have hblock : adding T c = [.humanDecides T.name c.name] := by
          simp [adding, hknown.1, hknown.2]
        rw [hblock]
        exact ⟨_, rfl, ⟨⟨cols, rfl⟩, hkept⟩, fun h => absurd hknown h, fun b _ _ => ⟨id, id⟩⟩
      · refine ⟨_, run_adding ht hknown (hready hknown),
          ⟨⟨_, rfl⟩, fun r hr => List.mem_append_left _ (hkept r hr)⟩,
          fun _ => List.mem_append_right _ (List.mem_singleton_self _),
          fun b hb hne => ⟨fun hb' hk => ?_, fun hd hk => List.mem_append_left _ (hd hk)⟩⟩
        rintro ⟨r, hr, hrt, hrn⟩
        obtain hr | hr := List.mem_append.mp hr
        · exact hb' hk ⟨r, hr, hrt, hrn⟩
        · obtain rfl := List.mem_singleton.mp hr
          refine hne (List.inj_on_of_nodup_map (arriving_nodup M db T) hb ?_ hrn.symm)
          simp [has])
    ⟨⟨m.columns, rfl⟩, fun r hr => hr⟩ hfree
  exact ⟨cols, hrun, hkept, hdone⟩

/-! ## Indexes -/

/-- What is proposed for an index, on a database that has of its name what the first one had. -/
theorem run_indexing (hT : T ∈ M.tables) (hthere : T.name ∈ db.tables)
    {a : Index × Statement} (ha : a ∈ T.makings) (ht : T.name ∈ m.tables)
    (hcols : ∀ n ∈ a.1.columns, Waits db T n ∨ m.HasColumn T.name n)
    (hready : ∀ r : IndexRow, r.table = T.name → r.name = a.1.name →
      (r ∈ m.indexes ↔ r ∈ db.indexes)) :
    ∃ rows, m.run (indexing (M.against db) T a.1.name a.1.columns a.2) =
        some { m with indexes := rows } ∧
      (∀ r : IndexRow, (r.table = T.name → r.name ≠ a.1.name) → (r ∈ rows ↔ r ∈ m.indexes)) ∧
      (a.1.row T.name ∈ rows ∨
        (a.1.row T.name ∉ db.indexes ∧ ∃ n ∈ a.1.columns, Waits db T n)) := by
  classical
  have hknown (hw : ¬ ∃ n ∈ a.1.columns, Waits db T n) : ∀ n ∈ a.1.columns, m.HasColumn T.name n :=
    fun n hn => (hcols n hn).resolve_left fun h => hw ⟨n, hn, h⟩
  have hrows {rows : List IndexRow} (r : IndexRow) (hr : r.table = T.name → r.name ≠ a.1.name) :
      r ∈ rows ++ [a.1.row T.name] ↔ r ∈ rows := by
    rw [List.mem_append, List.mem_singleton, or_iff_left]
    rintro rfl
    exact hr rfl rfl
  rw [indexing_eq hT hthere (mem_makings_index ha)]
  split_ifs with hr hw hx
  · exact ⟨m.indexes, rfl, fun r _ => Iff.rfl, .inl ((hready _ rfl rfl).mpr hr)⟩
  · exact ⟨m.indexes, rfl, fun r _ => Iff.rfl, .inr ⟨hr, hw⟩⟩
  · have hdrop : m.HasIndex T.name a.1.name := by
      obtain ⟨r, hr, hrt, hrn⟩ := hx
      exact ⟨r, (hready r hrt hrn).mpr hr, hrt, hrn⟩
    let left := m.indexes.filter fun r => ¬ (r.table = T.name ∧ r.name = a.1.name)
    have hmem {r : IndexRow} : r ∈ left ↔
        r ∈ m.indexes ∧ ¬ (r.table = T.name ∧ r.name = a.1.name) := by
      rw [List.mem_filter, decide_eq_true_eq]
    have hadd : addIndex { m with indexes := left } T.name a.1 =
        some { m with indexes := left ++ [a.1.row T.name] } := by
      refine if_pos ⟨ht, ?_, hknown hw⟩
      rintro ⟨r, hr, hrt, hrn⟩
      exact (hmem.mp hr).2 ⟨hrt, hrn⟩
    refine ⟨left ++ [a.1.row T.name], ?_, fun r hr => ?_, .inl (by simp)⟩
    · rw [List.singleton_append, run_cons, execute, if_pos hdrop, Option.bind_some, run_cons,
        execute_making ha, hadd, Option.bind_some, run_nil]
    · rw [hrows r hr, hmem, and_iff_left]
      exact fun h => hr h.1 h.2
  · have hadd : m.addIndex T.name a.1 = some { m with indexes := m.indexes ++ [a.1.row T.name] } := by
      refine if_pos ⟨ht, ?_, hknown hw⟩
      rintro ⟨r, hr, hrt, hrn⟩
      exact hx ⟨r, (hready r hrt hrn).mp hr, hrt, hrn⟩
    refine ⟨m.indexes ++ [a.1.row T.name], ?_, fun r hr => hrows r hr, .inl (by simp)⟩
    rw [List.nil_append, run_cons, execute_making ha, hadd, Option.bind_some, run_nil]

/-- What a table is indexed by. -/
theorem run_makings (hT : T ∈ M.tables) (hthere : T.name ∈ db.tables) (ht : T.name ∈ m.tables)
    (hcols : ∀ n ∈ T.columns.map Column.name, Waits db T n ∨ m.HasColumn T.name n)
    (hagree : ∀ r : IndexRow, r.table = T.name → (r ∈ m.indexes ↔ r ∈ db.indexes)) :
    ∃ rows, m.run (T.makings.flatMap
        fun a => indexing (M.against db) T a.1.name a.1.columns a.2) =
        some { m with indexes := rows } ∧
      (∀ r : IndexRow, r.table = T.name → (∀ a ∈ T.makings, r.name ≠ a.1.name) →
        (r ∈ rows ↔ r ∈ db.indexes)) ∧
      ∀ a ∈ T.makings, a.1.row T.name ∈ rows ∨
        (a.1.row T.name ∉ db.indexes ∧ ∃ n ∈ a.1.columns, Waits db T n) := by
  have hnames : (T.makings.map fun a => a.1.name).Nodup := by
    have h := (index_names T).2.2.2.1
    rw [← makings_index, List.map_map] at h
    exact h
  obtain ⟨m', hrun, ⟨⟨rows, rfl⟩, hkept⟩, hdone⟩ := run_flatMap (m := m)
    (fun a => indexing (M.against db) T a.1.name a.1.columns a.2)
    (fun s => (∃ rows, s = { m with indexes := rows }) ∧ ∀ r : IndexRow, r.table = T.name →
      (∀ a ∈ T.makings, r.name ≠ a.1.name) → (r ∈ s.indexes ↔ r ∈ db.indexes))
    (fun a s => ∀ r : IndexRow, r.table = T.name → r.name = a.1.name →
      (r ∈ s.indexes ↔ r ∈ db.indexes))
    (fun a s => a.1.row T.name ∈ s.indexes ∨
      (a.1.row T.name ∉ db.indexes ∧ ∃ n ∈ a.1.columns, Waits db T n))
    (.of_map _ hnames)
    (by
      rintro xs a ys has - ⟨⟨rows, rfl⟩, hkept⟩ hready -
      have ha : a ∈ T.makings := by simp [has]
      obtain ⟨rows', hrun, hothers, hdone⟩ := run_indexing hT hthere ha
        (m := { m with indexes := rows }) ht
        (fun n hn => hcols n (T.indexed a.1 (mem_makings_index ha) n hn)) hready
      refine ⟨_, hrun, ⟨⟨rows', rfl⟩, fun r hrt hr => ?_⟩, hdone, fun b hb hne => ?_⟩
      · exact (hothers r fun _ => hr a ha).trans (hkept r hrt hr)
      · have hname : b.1.name ≠ a.1.name :=
          fun h => hne (List.inj_on_of_nodup_map hnames hb ha h)
        refine ⟨fun hb' r hrt hrn => ?_, fun hd => hd.imp_left fun hr => ?_⟩
        · exact (hothers r fun _ => hrn ▸ hname).trans (hb' r hrt hrn)
        · exact (hothers _ fun _ => hname).mpr hr)
    ⟨⟨m.indexes, rfl⟩, fun r hrt _ => hagree r hrt⟩ fun a _ r hrt _ => hagree r hrt
  exact ⟨rows, hrun, hkept, hdone⟩

/-! ## Keys -/

/-- What is proposed for a key, on a database that has of its column and of the index it is given
what the first one had. -/
theorem run_keying (hT : T ∈ M.tables) (hthere : T.name ∈ db.tables) (hf : f ∈ T.foreignKeys)
    (hfits : Settled db T) (ht : T.name ∈ m.tables)
    (hcol : Waits db T f.column ∨ m.HasColumn T.name f.column)
    (href : ToAdd db T f → m.HasColumn f.refTable f.refColumn)
    (hstored : ∀ k ∈ m.keys, k.row.table = T.name → k.name ≠ none → k ∈ db.keys)
    (hready : ∀ k : Key, k.row.table = T.name → k.row.column = f.column →
      (k ∈ m.keys ↔ k ∈ db.keys)) :
    ∃ ks gs, m.run (keying (M.against db) db.keyName T f) =
        some { m with keys := ks, indexes := m.indexes ++ gs } ∧
      (ToAdd db T f → gs = m.givenFor T.name f) ∧ (¬ ToAdd db T f → gs = []) ∧
      (∀ k ∈ ks, k.row.table = T.name → k.name ≠ none → k ∈ db.keys) ∧
      (∀ k : Key, (k.row.table = T.name → k.row.column ≠ f.column) → (k ∈ ks ↔ k ∈ m.keys)) ∧
      (f.row T.name ∈ ks.map Key.row ∨ KeyWaits db T f) := by
  classical
  have hknown (hw : ¬ Waits db T f.column) : m.HasColumn T.name f.column := hcol.resolve_left hw
  have hbrought (ks : List Key) : f.row T.name ∈ (ks ++ [Key.mk none (f.row T.name)]).map Key.row := by
    simp
  have hrows {ks : List Key} (k : Key) (hk : k.row.table = T.name → k.row.column ≠ f.column) :
      k ∈ ks ++ [⟨none, f.row T.name⟩] ↔ k ∈ ks := by
    rw [List.mem_append, List.mem_singleton, or_iff_left]
    rintro rfl
    exact hk rfl rfl
  have hunnamed {ks : List Key} (hks : ∀ k ∈ ks, k ∈ m.keys) :
      ∀ k ∈ ks ++ [⟨none, f.row T.name⟩], k.row.table = T.name → k.name ≠ none → k ∈ db.keys := by
    intro k hk hkt hkn
    obtain hk | hk := List.mem_append.mp hk
    · exact hstored k (hks k hk) hkt hkn
    · exact absurd (congrArg Key.name (List.mem_singleton.mp hk)) hkn
  have hnone (h : f.row T.name ∈ db.shape.keys ∨ Waits db T f.column) : ¬ ToAdd db T f := by
    rintro (hgone | ⟨hgone, hw⟩)
    · exact hgone hthere
    · exact h.elim hgone hw
  rw [keying_eq hT hthere hf]
  split_ifs with hr hw hx
  · refine ⟨m.keys, [], ?_, fun h => absurd h (hnone (.inl hr)), fun _ => rfl, hstored,
      fun k _ => Iff.rfl, .inl ?_⟩
    · rw [List.append_nil]
      rfl
    · obtain ⟨k, hk, hrow⟩ := List.mem_map.mp hr
      exact List.mem_map.mpr ⟨k, (hready k (by rw [hrow]; rfl) (by rw [hrow]; rfl)).mpr hk, hrow⟩
  · refine ⟨m.keys, [], ?_, fun h => absurd h (hnone (.inr hw)), fun _ => rfl, hstored,
      fun k _ => Iff.rfl, .inr ⟨hr, hw⟩⟩
    rw [List.append_nil]
    rfl
  · have hadd : ToAdd db T f := .inr ⟨hr, hw⟩
    obtain ⟨k₀, hk₀, ht₀, hc₀, hn₀⟩ := keyName_spec hx
    let left := m.keys.filter fun k =>
      ¬ (k.row.table = T.name ∧ k.name = some (db.keyName T.name f.column))
    have hmem {k : Key} : k ∈ left ↔ k ∈ m.keys ∧
        ¬ (k.row.table = T.name ∧ k.name = some (db.keyName T.name f.column)) := by
      rw [List.mem_filter, decide_eq_true_eq]
    have hdrop : m.execute (.dropForeignKey T.name (db.keyName T.name f.column)) =
        some { m with keys := left } :=
      if_pos ⟨k₀, (hready k₀ ht₀ hc₀).mpr hk₀, ht₀, hn₀⟩
    have hfree : ¬ HasKey { m with keys := left } T.name f.column := by
      rintro ⟨k, hk, hkt, hkc⟩
      obtain ⟨hk, hnot⟩ := hmem.mp hk
      have hsame := hfits.single f hf hadd k ((hready k hkt hkc).mp hk) k₀ hk₀ hkt hkc ht₀ hc₀
      exact hnot ⟨hkt, hsame ▸ hn₀⟩
    have hkey : execute { m with keys := left } (.addForeignKey T.name f) = some { m with
        keys := left ++ [⟨none, f.row T.name⟩]
        indexes := m.indexes ++ m.givenFor T.name f } :=
      if_pos ⟨ht, hfree, hknown hw, href hadd⟩
    refine ⟨left ++ [⟨none, f.row T.name⟩], _, ?_, fun _ => rfl, fun h => absurd hadd h, ?_, ?_,
      .inl (hbrought _)⟩
    · rw [List.singleton_append, run_cons, hdrop, Option.bind_some, run_cons, hkey, Option.bind_some,
        run_nil]
    · exact hunnamed fun k hk => (hmem.mp hk).1
    · intro k hk
      rw [hrows k hk, hmem, and_iff_left_of_imp]
      rintro hkm ⟨hkt, hkn⟩
      obtain rfl := key_eq (hstored k hkm hkt (by simp [hkn])) hk₀ (hkt.trans ht₀.symm)
        (hkn.trans hn₀.symm)
      exact hk hkt hc₀
  · have hadd : ToAdd db T f := .inr ⟨hr, hw⟩
    have hfree : ¬ m.HasKey T.name f.column := by
      rintro ⟨k, hk, hkt, hkc⟩
      exact hx ⟨k, (hready k hkt hkc).mp hk, hkt, hkc⟩
    have hkey : m.execute (.addForeignKey T.name f) = some { m with
        keys := m.keys ++ [⟨none, f.row T.name⟩]
        indexes := m.indexes ++ m.givenFor T.name f } :=
      if_pos ⟨ht, hfree, hknown hw, href hadd⟩
    refine ⟨m.keys ++ [⟨none, f.row T.name⟩], _, ?_, fun _ => rfl, fun h => absurd hadd h, ?_, ?_,
      .inl (hbrought _)⟩
    · rw [List.nil_append, run_cons, hkey, Option.bind_some, run_nil]
    · exact hunnamed fun k hk => hk
    · exact hrows

theorem mem_givenFor {r : IndexRow} :
    r ∈ m.givenFor T.name f ↔ ∃ i ∈ f.given, ¬ m.HasIndex T.name i.name ∧ i.row T.name = r := by
  simp only [givenFor, List.mem_map, List.mem_filter, Option.mem_toList, decide_eq_true_eq,
    and_assoc, Option.mem_def]

/-- The keys of a table. -/
theorem run_foreignKeys (hT : T ∈ M.tables) (hthere : T.name ∈ db.tables) (hfits : Settled db T)
    (ht : T.name ∈ m.tables)
    (hcols : ∀ n ∈ T.columns.map Column.name, Waits db T n ∨ m.HasColumn T.name n)
    (href : ∀ f ∈ T.foreignKeys, ToAdd db T f → m.HasColumn f.refTable f.refColumn)
    (hkeys : ∀ k : Key, k.row.table = T.name → (k ∈ m.keys ↔ k ∈ db.keys))
    (hgiven : ∀ f ∈ T.foreignKeys, ∀ i ∈ f.given, ∀ r : IndexRow, r.table = T.name →
      r.name = i.name → (r ∈ m.indexes ↔ r ∈ db.indexes)) :
    ∃ ks gs, m.run (T.foreignKeys.flatMap (keying (M.against db) db.keyName T)) =
        some { m with keys := ks, indexes := m.indexes ++ gs } ∧
      ∀ f ∈ T.foreignKeys, (f.row T.name ∈ ks.map Key.row ∨ KeyWaits db T f) ∧
        ∀ i ∈ f.given, i.row T.name ∈ m.indexes ++ gs ∨ KeyWaits db T f := by
  obtain ⟨m', hrun, ⟨⟨ks, gs, rfl⟩, -⟩, hdone⟩ := run_flatMap (m := m)
    (keying (M.against db) db.keyName T)
    (fun s => (∃ ks gs, s = { m with keys := ks, indexes := m.indexes ++ gs }) ∧
      ∀ k ∈ s.keys, k.row.table = T.name → k.name ≠ none → k ∈ db.keys)
    (fun f s => (∀ k : Key, k.row.table = T.name → k.row.column = f.column →
      (k ∈ s.keys ↔ k ∈ db.keys)) ∧ ∀ i ∈ f.given, ∀ r : IndexRow, r.table = T.name →
      r.name = i.name → (r ∈ s.indexes ↔ r ∈ db.indexes))
    (fun f s => (f.row T.name ∈ s.keys.map Key.row ∨ KeyWaits db T f) ∧
      ∀ i ∈ f.given, i.row T.name ∈ s.indexes ∨ KeyWaits db T f)
    (.of_map _ T.keyColumns)
    (by
      rintro xs f ys hsplit - ⟨⟨ks, gs, rfl⟩, hstored⟩ ⟨hready, hfree⟩ -
      have hf : f ∈ T.foreignKeys := by simp [hsplit]
      obtain ⟨ks', gs', hrun, hadd, hnot, hstored', hothers, hdone⟩ := run_keying hT hthere hf
        hfits (m := { m with keys := ks, indexes := m.indexes ++ gs }) ht
        (hcols f.column (T.referring f hf)) (href f hf) hstored hready
      have hrows {r : IndexRow} (hr : r ∈ gs') : ∃ i ∈ f.given, i.row T.name = r := by
        by_cases h : ToAdd db T f
        · obtain ⟨i, hi, -, he⟩ := mem_givenFor.mp (hadd h ▸ hr)
          exact ⟨i, hi, he⟩
        · rw [hnot h] at hr
          cases hr
      refine ⟨_, hrun, ⟨⟨ks', gs ++ gs', by rw [List.append_assoc]⟩, hstored'⟩,
        ⟨hdone, fun i hi => ?_⟩, fun b hb hne => ⟨fun ⟨hbk, hbi⟩ => ⟨fun k hkt hkc => ?_,
          fun i hi r hrt hrn => ?_⟩, fun ⟨hbk, hbi⟩ => ⟨hbk.imp_left fun h => ?_,
          fun i hi => (hbi i hi).imp_left fun h => List.mem_append_left _ h⟩⟩⟩
      · obtain hr | hw | ⟨h, hx⟩ := hfits.given f hf i hi
        · exact .inl (List.mem_append_left _ ((hfree i hi _ rfl rfl).mpr hr))
        · exact .inr hw
        · refine .inl (List.mem_append_right _ ?_)
          rw [hadd h]
          refine mem_givenFor.mpr ⟨i, hi, ?_, rfl⟩
          rintro ⟨r, hr, hrt, hrn⟩
          exact hx ⟨r, (hfree i hi r hrt hrn).mp hr, hrt, hrn⟩
      · refine (hothers k fun _ hkf => hne ?_).trans (hbk k hkt hkc)
        exact List.inj_on_of_nodup_map T.keyColumns hb hf (hkc.symm.trans hkf)
      · rw [List.mem_append, or_iff_left, hbi i hi r hrt hrn]
        intro hr
        obtain ⟨j, hj, rfl⟩ := hrows hr
        exact hne (given_eq hb hf hi hj hrn.symm)
      · obtain ⟨k, hk, hrow⟩ := List.mem_map.mp h
        refine List.mem_map.mpr ⟨k, (hothers k fun _ hkf => hne ?_).mpr hk, hrow⟩
        rw [hrow] at hkf
        exact List.inj_on_of_nodup_map T.keyColumns hb hf hkf)
    ⟨⟨m.keys, [], by rw [List.append_nil]⟩, fun k hk hkt _ => (hkeys k hkt).mp hk⟩
    fun f hf => ⟨fun k hkt _ => hkeys k hkt, hgiven f hf⟩
  exact ⟨ks, gs, hrun, hdone⟩

/-! ## Tables -/

theorem Agree.hasColumn {table n : String} (h : Agree table m m') :
    m'.HasColumn table n ↔ m.HasColumn table n := by
  constructor
  · rintro ⟨r, hr, ht, hn⟩
    exact ⟨r, (h.columns r ht).mp hr, ht, hn⟩
  · rintro ⟨r, hr, ht, hn⟩
    exact ⟨r, (h.columns r ht).mpr hr, ht, hn⟩

/-- What is proposed for a table that is there brings it. -/
theorem run_there (hT : T ∈ M.tables) (hthere : T.name ∈ db.tables) (hfits : Settled db T)
    (hagree : Agree T.name db.toDatabase m)
    (href : ∀ f ∈ T.foreignKeys, ToAdd db T f → m.HasColumn f.refTable f.refColumn ∨
      (f.refTable = T.name ∧ f.refColumn ∈ T.columns.map Column.name ∧
        (Waits db T f.refColumn → db.HasColumn T.name f.refColumn))) :
    ∃ m', m.run (statementsOf (M.against db) db.keyName T) = some m' ∧ Brought db T m' := by
  have ht : T.name ∈ m.tables := hagree.tables.mpr hthere
  have hhas {n : String} : m.HasColumn T.name n ↔ db.HasColumn T.name n := hagree.hasColumn
  have hfree : ∀ c ∈ arriving (M.against db) T, ¬ (c.nullable = false ∧ filling c = none) →
      ¬ m.HasColumn T.name c.name := by
    intro c hc hknown hx
    obtain ⟨hc, hgone⟩ := (mem_arriving hT).mp hc
    exact hfits.columns c hc hgone hknown (hhas.mp hx)
  obtain ⟨cols, hcolumns, hkept, harrived⟩ := run_arriving ht hfree
  have hcol {c : Column} (hc : c ∈ T.columns) : c.row T.name ∈ cols ∨ Undecided db T c := by
    by_cases hgone : c.row T.name ∈ db.columns
    · exact .inl (hkept _ ((hagree.columns _ rfl).mpr hgone))
    · by_cases hknown : c.nullable = false ∧ filling c = none
      · exact .inr ⟨hthere, hc, hgone, hknown.1, hknown.2⟩
      · exact .inl (harrived c ((mem_arriving hT).mpr ⟨hc, hgone⟩) hknown)
  have hname : ∀ n ∈ T.columns.map Column.name, Waits db T n ∨
      HasColumn { m with columns := cols } T.name n := by
    intro n hn
    obtain ⟨c, hc, rfl⟩ := List.mem_map.mp hn
    obtain hr | hw := hcol hc
    · exact .inr ⟨_, hr, rfl, rfl⟩
    · exact .inl ⟨c, hw, rfl⟩
  obtain ⟨rows, hmakings, hunmade, hmade⟩ := run_makings (m := { m with columns := cols }) hT hthere
    ht hname fun r hrt => hagree.indexes r hrt
  obtain ⟨hpm, -, hgm, -, -⟩ := index_names T
  have hmaking {a : Index × Statement} (ha : a ∈ T.makings) := mem_makings_index ha
  obtain ⟨ks, gs, hkeys, hkeyed⟩ := run_foreignKeys
    (m := { m with columns := cols, indexes := rows }) hT hthere hfits ht hname
    (fun f hf hadd => by
      obtain ⟨r, hr, hrt, hrn⟩ | ⟨hself, hdeclared, hthere⟩ := href f hf hadd
      · exact ⟨r, hkept r hr, hrt, hrn⟩
      · rw [hself]
        obtain hw | hx := hname f.refColumn hdeclared
        · obtain ⟨r, hr, hrt, hrn⟩ := hhas.mpr (hthere hw)
          exact ⟨r, hkept r hr, hrt, hrn⟩
        · exact hx)
    (fun k hkt => hagree.keys k hkt)
    (fun f hf i hi r hrt hrn => hunmade r hrt fun a ha =>
      hrn ▸ hgm a.1 (hmaking ha) i (mem_given hf hi))
  refine ⟨{ tables := m.tables, columns := cols, indexes := rows ++ gs, keys := ks }, ?_, ht,
    fun c hc => hcol hc, fun i hi => ?_, fun i hi => ?_, fun f hf => (hkeyed f hf).1,
    fun f hf => (hkeyed f hf).2⟩
  · rw [statementsOf_there hT hthere, run_append, run_append, hcolumns, Option.bind_some, hmakings,
      Option.bind_some, hkeys]
  · exact List.mem_append_left _ ((hunmade _ rfl fun a ha => hpm i hi a.1 (hmaking ha)).mpr
      (hfits.primary i hi))
  · rw [← makings_index] at hi
    obtain ⟨a, ha, rfl⟩ := List.mem_map.mp hi
    exact (hmade a ha).imp_left fun h => List.mem_append_left _ h

/-- An index a table is created with is not one created after it. -/
theorem inlined_ne {j : Index} (hj : j ∈ T.primary.toList ++ T.uniques.map Unique.index ++
    T.foreignKeys.filterMap ForeignKey.given) (hi : i ∈ T.indexes) : j.name ≠ i.name := by
  obtain ⟨hpm, -, hgm, hmade, -⟩ := index_names T
  rw [List.map_append, List.nodup_append] at hmade
  obtain hj | hj := List.mem_append.mp hj
  · obtain hj | hj := List.mem_append.mp hj
    · exact hpm j (Option.mem_toList.mp hj) i (List.mem_append_left _ hi)
    · exact (hmade.2.2 _ (List.mem_map_of_mem hi) _ (List.mem_map_of_mem hj)).symm
  · exact hgm i (List.mem_append_left _ hi) j hj

/-- What is proposed for a table that is not there brings it. -/
theorem run_gone (hT : T ∈ M.tables) (hgone : T.name ∉ db.tables)
    (hagree : Agree T.name db.toDatabase m)
    (href : ∀ f ∈ T.foreignKeys, m.HasColumn f.refTable f.refColumn ∨ f.refTable = T.name) :
    ∃ m', m.run (statementsOf (M.against db) db.keyName T) = some m' ∧ Brought db T m' := by
  have hfree : T.name ∉ m.tables := fun h => hgone (hagree.tables.mp h)
  let inlined := T.primary.toList ++ T.uniques.map Unique.index ++
    T.foreignKeys.filterMap ForeignKey.given
  let born : Database := {
    tables := m.tables ++ [T.name]
    columns := m.columns ++ T.columns.map (Column.row T.name)
    indexes := m.indexes ++ inlined.map (Index.row T.name)
    keys := m.keys ++ T.foreignKeys.map fun f => ⟨none, f.row T.name⟩ }
  have hcreate : m.execute (.createTable T) = some born :=
    if_pos ⟨hfree, fun f hf => (href f hf).symm⟩
  have hborn : ∀ i ∈ sortedBy Index.name T.indexes, ¬ born.HasIndex T.name i.name := by
    rintro i hi ⟨r, hr, hrt, hrn⟩
    rw [mem_sortedBy] at hi
    obtain hr | hr := List.mem_append.mp hr
    · exact hgone (hrt ▸ db.indexesOwned r ((hagree.indexes r hrt).mp hr))
    · obtain ⟨j, hj, rfl⟩ := List.mem_map.mp hr
      exact inlined_ne hj hi hrn
  have hnames : ((sortedBy Index.name T.indexes).map Index.name).Nodup := by
    refine (((sortedBy_perm _ _).map _).nodup_iff).mpr ?_
    have h := (index_names T).2.2.2.1
    rw [List.map_append] at h
    exact h.of_append_left
  obtain ⟨m', hrun, ⟨rows, rfl⟩, hdone⟩ := run_flatMap (m := born)
    (fun i => [Statement.createIndex T.name i])
    (fun s => ∃ rows, s = { born with indexes := born.indexes ++ rows })
    (fun i s => ¬ s.HasIndex T.name i.name) (fun i s => i.row T.name ∈ s.indexes)
    (.of_map _ hnames)
    (by
      rintro xs i ys hsplit - ⟨rows, rfl⟩ hfree -
      have hi : i ∈ sortedBy Index.name T.indexes := by simp [hsplit]
      have hadd : addIndex { born with indexes := born.indexes ++ rows } T.name i =
          some { born with indexes := born.indexes ++ (rows ++ [i.row T.name]) } := by
        rw [← List.append_assoc]
        refine if_pos ⟨by simp [born], hfree, fun n hn => ?_⟩
        obtain ⟨c, hc, rfl⟩ := List.mem_map.mp
          (T.indexed i (List.mem_append_left _ (mem_sortedBy.mp hi)) n hn)
        exact ⟨c.row T.name, List.mem_append_right _ (List.mem_map_of_mem hc), rfl, rfl⟩
      refine ⟨_, ?_, ⟨rows ++ [i.row T.name], rfl⟩, by simp, fun b hb hne => ⟨fun hb' => ?_,
        fun hd => ?_⟩⟩
      · rw [run_cons, execute, hadd, Option.bind_some, run_nil]
      · rintro ⟨r, hr, hrt, hrn⟩
        rw [← List.append_assoc] at hr
        obtain hr | hr := List.mem_append.mp hr
        · exact hb' ⟨r, hr, hrt, hrn⟩
        · obtain rfl := List.mem_singleton.mp hr
          exact hne (List.inj_on_of_nodup_map hnames hb hi hrn.symm)
      · rw [← List.append_assoc]
        exact List.mem_append_left _ hd)
    ⟨[], by rw [List.append_nil]⟩ hborn
  have hinlined {i : Index} (hi : i ∈ inlined) : i.row T.name ∈ born.indexes ++ rows :=
    List.mem_append_left _ (List.mem_append_right _ (List.mem_map_of_mem hi))
  refine ⟨{ born with indexes := born.indexes ++ rows }, ?_, by simp [born], fun c hc => .inl ?_,
    fun i hi => hinlined ?_, fun i hi => .inl ?_,
    fun f hf => .inl ?_, fun f hf i hi => .inl (hinlined ?_)⟩
  · rw [statementsOf_gone hT hgone, run_cons, hcreate, Option.bind_some, List.map_eq_flatMap, hrun]
  · exact List.mem_append_right _ (List.mem_map_of_mem hc)
  · simp [inlined, Option.mem_toList.mpr hi]
  · obtain hi | hi := List.mem_append.mp hi
    · exact hdone i (mem_sortedBy.mpr hi)
    · exact hinlined (by simp [inlined, hi])
  · exact List.mem_map.mpr
      ⟨⟨none, f.row T.name⟩, List.mem_append_right _ (List.mem_map_of_mem hf), rfl⟩
  · exact List.mem_append_right _ (mem_given hf hi)

theorem Brought.congr (h : Agree T.name m m') (hb : Brought db T m) : Brought db T m' := by
  have hkey {f : ForeignKey} (hf : f.row T.name ∈ m.shape.keys) : f.row T.name ∈ m'.shape.keys := by
    obtain ⟨k, hk, hrow⟩ := List.mem_map.mp hf
    exact List.mem_map.mpr ⟨k, (h.keys k (by rw [hrow]; rfl)).mpr hk, hrow⟩
  exact {
    table := h.tables.mpr hb.table
    columns := fun c hc => (hb.columns c hc).imp_left (h.columns _ rfl).mpr
    primary := fun i hi => (h.indexes _ rfl).mpr (hb.primary i hi)
    indexes := fun i hi => (hb.indexes i hi).imp_left (h.indexes _ rfl).mpr
    keys := fun f hf => (hb.keys f hf).imp_left hkey
    given := fun f hf i hi => (hb.given f hf i hi).imp_left (h.indexes _ rfl).mpr }

/-- A column a key that is added refers to is there, where it is of a table that is brought. -/
theorem hasColumn_of_brought (hfits : Fits M db) (hT : T ∈ M.tables) (hf : f ∈ T.foreignKeys)
    (hadd : ToAdd db T f) {R : Table} (hR : R ∈ M.tables) (hname : R.name = f.refTable)
    (hcol : f.refColumn ∈ R.columns.map Column.name)
    (hinv : ∀ t n, db.HasColumn t n → m.HasColumn t n) (hb : Brought db R m) :
    m.HasColumn f.refTable f.refColumn := by
  obtain ⟨c, hc, hn⟩ := List.mem_map.mp hcol
  rw [← hname]
  obtain hr | hw := hb.columns c hc
  · exact ⟨_, hr, rfl, hn⟩
  · exact hinv _ _ (hfits.referred T hT f hf hadd R hR hname ⟨c, hw, hn⟩)

/-- A proposal for a database that fits runs and brings the models. -/
theorem proposes_of_fits (hfits : Fits M db) : Proposes M db := by
  refine ⟨fun st hst => not_dropsKept hst, ?_⟩
  obtain ⟨final, hrun, -, hdone⟩ := run_flatMap (m := db.toDatabase)
    (statementsOf (M.against db) db.keyName)
    (fun s => ∀ t n, db.HasColumn t n → s.HasColumn t n)
    (fun T s => Agree T.name db.toDatabase s) (fun T s => Brought db T s) (.of_map _ M.names)
    (by
      intro xs T ys hsplit s hinv hagree hdone
      have hT : T ∈ M.tables := by simp [hsplit]
      have hbefore {f : ForeignKey} (hf : f ∈ T.foreignKeys) (hadd : ToAdd db T f) :
          s.HasColumn f.refTable f.refColumn ∨
            (T.name = f.refTable ∧ f.refColumn ∈ T.columns.map Column.name) := by
        obtain ⟨R, hR, hname, hcol⟩ := M.sorted xs T ys hsplit f hf
        obtain hR | hR := List.mem_append.mp hR
        · have hR' : R ∈ M.tables := hsplit ▸ List.mem_append_left _ hR
          exact .inl (hasColumn_of_brought hfits hT hf hadd hR' hname hcol hinv (hdone R hR))
        · obtain rfl := List.mem_singleton.mp hR
          exact .inr ⟨hname, hcol⟩
      obtain ⟨s', hrun, hb⟩ : ∃ s', s.run (statementsOf (M.against db) db.keyName T) = some s' ∧
          Brought db T s' := by
        by_cases hthere : T.name ∈ db.tables
        · refine run_there hT hthere (hfits.settled T hT hthere) hagree fun f hf hadd => ?_
          refine (hbefore hf hadd).imp_right fun ⟨hname, hcol⟩ => ⟨hname.symm, hcol, fun hw => ?_⟩
          exact hfits.referred T hT f hf hadd T hT hname hw
        · refine run_gone hT hthere hagree fun f hf => ?_
          exact (hbefore hf (.inl hthere)).imp_right fun h => h.1.symm
      refine ⟨s', hrun, fun t n hx => hasColumn_of_run hrun (hinv t n hx), hb,
        fun T' hT' hne => ?_⟩
      have hkept : Agree T'.name s s' := by
        refine agree_of_run hrun fun st hst => ?_
        rw [about_of_mem hT hst]
        exact fun he => hne (table_eq hT' hT he)
      exact ⟨fun h => h.trans hkept, fun h => h.congr hkept⟩)
    (fun t n hx => hx) (fun T _ => .refl _ _)
  exact ⟨final, hrun, hdone⟩

/-- A proposal runs, drops nothing that is kept and brings the models, where the database fits. -/
theorem proposes_iff_fits (M : Metadata) (db : Stored) : Proposes M db ↔ Fits M db :=
  ⟨fits_of_proposes, proposes_of_fits⟩

/-! A column that got longer is proposed as one that arrives. -/

/-- Models of one table, whose column is to be longer than it is. -/
def longer : Metadata where
  tables := [{
    name := "plan"
    columns := [⟨"code", "varchar(255)", true, "", none⟩]
    primary := none
    indexes := []
    uniques := []
    foreignKeys := []
    columnNames := by decide
    indexNames := by decide
    keyColumns := by decide
    indexed := by simp
    referring := by simp }]
  names := by decide
  sorted := by
    intro xs T ys h f hf
    have hT : T ∈ xs ++ T :: ys := by simp
    rw [← h, List.mem_singleton] at hT
    subst hT
    cases hf

def shorter : Stored where
  tables := ["plan"]
  columns := [⟨"plan", "code", "varchar(64)", true, "", ""⟩]
  indexes := []
  keys := []
  named := by simp
  names := by decide
  columnsOwned := by simp
  indexesOwned := by simp
  keysOwned := by simp

theorem longer_refused : ¬ Proposes longer shorter := by
  rintro ⟨-, final, hrun, -⟩
  have hnone : (shorter.run (longer.proposal shorter)).isNone = true := by decide +kernel
  simp [hrun] at hnone

end FastKit.Schema
