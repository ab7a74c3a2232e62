import FastKit.Secrets.Walk

/-! # The statements of a rewrite

What each statement of a rewrite does to its walk: a batch is read, a row is passed or written, a
model is left behind, and all is committed.
-/

namespace FastKit.Secrets.Rotation

open Picks (sortedBy mem_sortedBy sortedBy_perm le_last mem_take_of_le)

variable {κ δ : Type} {F : Fernet κ δ} {keys : Keys κ} {draws : String → δ} {registry : Registry}
  {s : Rotation} {db₀ : Database} {before models : List Model} {model : Model} {rows : List Row}
  {row : Row} {last : ℕ} {table : String}

/-! ## Models with secrets -/

theorem mem_stored : model ∈ stored registry ↔
    ∃ mapper ∈ registry.mappers, mapper.secrets ≠ [] ∧ (mapper.table, mapper.secrets) = model := by
  simp [stored, and_assoc]

theorem stored_nodup (registry : Registry) : ((stored registry).map Prod.fst).Nodup := by
  rw [stored, List.map_map]
  refine (((sortedBy_perm _ _).map _).nodup_iff).mpr ?_
  exact registry.tables.sublist (List.filter_sublist.map _)

/-- A class is the only one of its table. -/
theorem secretColumn_iff (h : model ∈ stored registry) {column : String} :
    SecretColumn registry model.1 column ↔ column ∈ model.2 := by
  obtain ⟨mapper, hmapper, -, rfl⟩ := mem_stored.mp h
  constructor
  · rintro ⟨other, hother, htable, hc⟩
    exact List.inj_on_of_nodup_map registry.tables hother hmapper htable ▸ hc
  · exact fun hc => ⟨mapper, hmapper, rfl, hc⟩

/-- A column of secrets is one of a model that is walked. -/
theorem stored_of_secretColumn {column : String} (h : SecretColumn registry table column) :
    ∃ model ∈ stored registry, model.1 = table ∧ column ∈ model.2 := by
  obtain ⟨mapper, hmapper, rfl, hc⟩ := h
  exact ⟨_, mem_stored.mpr ⟨mapper, hmapper, List.ne_nil_of_mem hc, rfl⟩, rfl, hc⟩

/-! ## What the transaction sees -/

theorem seen_of_none (h : s.written table row.id = none) : s.seen table row = row := by
  rw [seen, h]

theorem seen_id (h : Inv F keys registry db₀ s) : (s.seen table row).id = row.id := by
  rw [seen]
  cases hw : s.written table row.id with
  | none => rfl
  | some p =>
    obtain ⟨r, -, hid, hheld⟩ := h.held table row.id p.1 p.2 hw
    exact hheld.id.trans hid

theorem view_ids (h : Inv F keys registry db₀ s) : ((s.view table).map Row.id) =
    (s.committed table).map Row.id := by
  rw [view, List.map_map]
  exact List.map_congr_left fun r _ => seen_id h

theorem mem_view_of_none (hrow : row ∈ s.committed table) (hw : s.written table row.id = none) :
    row ∈ s.view table :=
  List.mem_map.mpr ⟨row, hrow, seen_of_none hw⟩

theorem mem_committed_of_view (h : Inv F keys registry db₀ s) (hrow : row ∈ s.view table)
    (hw : s.written table row.id = none) : row ∈ s.committed table := by
  obtain ⟨r, hr, rfl⟩ := List.mem_map.mp hrow
  rw [seen_id h] at hw
  rwa [seen_of_none hw]

theorem view_eq (h : Inv F keys registry db₀ s) {r r' : Row} (hr : r ∈ s.view table)
    (hr' : r' ∈ s.view table) (hid : r.id = r'.id) : r = r' := by
  have hids := h.sound.ids table
  rw [← view_ids h] at hids
  exact List.inj_on_of_nodup_map hids hr hr' hid

/-- Rows of a batch are behind what was passed, and as everybody sees them. -/
theorem mem_select (h : Inv F keys registry db₀ s) (hrow : row ∈ s.select table last)
    (hahead : ∀ i, last < i → s.written table i = none) :
    row ∈ s.committed table ∧ last < row.id := by
  have hmem := mem_sortedBy.mp (List.mem_of_mem_take hrow)
  obtain ⟨hview, hlast⟩ := List.mem_filter.mp hmem
  have hlast : last < row.id := of_decide_eq_true hlast
  exact ⟨mem_committed_of_view h hview (hahead _ hlast), hlast⟩

/-- A batch is empty where no row is left. -/
theorem le_of_select (h : (s.select table last).getLast? = none) (hrow : row ∈ s.view table) :
    row.id ≤ last := by
  rw [List.getLast?_eq_none_iff, select, List.take_eq_nil_iff] at h
  have hempty := h.resolve_left (by decide)
  by_contra hlt
  have hmem : row ∈ sortedBy Row.id ((s.view table).filter (last < ·.id)) :=
    mem_sortedBy.mpr (List.mem_filter.mpr ⟨hrow, decide_eq_true (not_le.mp hlt)⟩)
  rw [hempty] at hmem
  cases hmem

/-! ## Statements -/

theorem Accounted.mono {more : List Row} (h : Accounted F keys s model rows row)
    (hmore : ∀ read ∈ rows, read ∈ more) : Accounted F keys s model more row :=
  h.imp_right fun hc column hcol => (hc column hcol).imp_right fun ⟨read, hread, hsame⟩ =>
    ⟨read, hmore read hread, hsame⟩

/-- A batch is read. -/
theorem walk_select (h : Inv F keys registry db₀ s)
    (hwalk : Walk F keys s before (model :: models) [] last)
    (hlast : (s.select model.1 last).getLast? = some row) :
    Walk F keys s before (model :: models) (s.select model.1 last) row.id := by
  have hahead := hwalk.ahead model rfl
  have hbehind : last < row.id := (mem_select h (List.mem_of_getLast? hlast) hahead).2
  refine ⟨hwalk.past, ?_, ?_, fun r hr => le_last hlast hr, ?_, ?_, hwalk.later⟩
  · rintro _ ⟨⟩ r hr hle
    by_cases hpassed : r.id ≤ last
    · exact (hwalk.current model rfl r hr hpassed).mono (by simp)
    · have hview := mem_view_of_none hr (hahead r.id (not_le.mp hpassed))
      refine .inr fun column _ => .inr ⟨r, ?_, rfl, rfl⟩
      refine mem_take_of_le (fun a ha b hb hid => ?_) hlast ?_ hle
      · exact view_eq h (List.mem_of_mem_filter ha) (List.mem_of_mem_filter hb) hid
      · exact List.mem_filter.mpr ⟨hview, decide_eq_true (not_le.mp hpassed)⟩
  · rintro _ ⟨⟩ r hr
    exact hahead r.id (mem_select h hr hahead).2
  · have hids : ((s.view model.1).map Row.id).Nodup := by
      rw [view_ids h]
      exact h.sound.ids model.1
    have hsorted : ((sortedBy Row.id ((s.view model.1).filter (last < ·.id))).map Row.id).Nodup :=
      (((sortedBy_perm _ _).map _).nodup_iff).mpr (hids.sublist (List.filter_sublist.map _))
    exact hsorted.sublist ((List.take_sublist _ _).map _)
  · rintro _ ⟨⟩ i hi
    exact hahead i (hbehind.trans hi)

/-- A model without rows left is behind. -/
theorem walk_next (h : Inv F keys registry db₀ s)
    (hwalk : Walk F keys s before (model :: models) [] last)
    (hlast : (s.select model.1 last).getLast? = none) :
    Walk F keys s (before ++ [model]) models [] 0 := by
  refine ⟨fun m hm r hr => ?_, fun m hm r hr hle => ?_, by simp, by simp, by simp,
    fun m hm i _ => hwalk.later m (List.mem_of_mem_head? hm) i,
    fun m hm i => hwalk.later m (List.mem_of_mem_tail hm) i⟩
  · obtain hm | hm := List.mem_append.mp hm
    · exact hwalk.past m hm r hr
    · obtain rfl := List.mem_singleton.mp hm
      refine hwalk.current m rfl r hr ?_
      by_contra hlt
      have hw := hwalk.ahead m rfl r.id (not_le.mp hlt)
      exact hlt (le_of_select hlast (mem_view_of_none hr hw))
  · exact absurd (h.sound.positive m.1 r hr) (by omega)

/-- A row without a secret is passed. -/
theorem walk_pass (hwalk : Walk F keys s before (model :: models) (row :: rows) last)
    (hblank : ∀ column ∈ model.2, Blank (row.secrets column)) :
    Walk F keys s before (model :: models) rows last := by
  have hids := List.nodup_cons.mp hwalk.ids
  refine ⟨hwalk.past, ?_, fun m hm r hr => hwalk.pending m hm r (List.mem_cons_of_mem _ hr),
    fun r hr => hwalk.inside r (List.mem_cons_of_mem _ hr), hids.2, hwalk.ahead, hwalk.later⟩
  rintro _ ⟨⟩ r hr hle
  refine (hwalk.current model rfl r hr hle).imp_right fun hc column hcol => ?_
  obtain hsettled | ⟨read, hread, hid, hsame⟩ := hc column hcol
  · exact .inl hsettled
  · obtain rfl | hread := List.mem_cons.mp hread
    · exact .inl (.inl (hsame ▸ hblank column hcol))
    · exact .inr ⟨read, hread, hid, hsame⟩

/-- The rewrite once a row is written. -/
def wrote (s : Rotation) (table : String) (read new : Row) : Rotation :=
  { s with written := fun t i => if t = table ∧ i = read.id then some (read, new) else s.written t i }

theorem wrote_self {new : Row} : (s.wrote table row new).written table row.id = some (row, new) :=
  if_pos ⟨rfl, rfl⟩

theorem wrote_of_ne {new : Row} {t : String} {i : ℕ} (h : ¬ (t = table ∧ i = row.id)) :
    (s.wrote table row new).written t i = s.written t i :=
  if_neg h

theorem Accounted.wrote {new r : Row} (h : Accounted F keys s model rows r) :
    Accounted F keys (s.wrote table row new) model rows r := by
  refine h.imp_left fun hw => ?_
  by_cases hsame : model.1 = table ∧ r.id = row.id
  · rw [hsame.1, hsame.2, wrote_self]
    exact Option.some_ne_none _
  · rwa [wrote_of_ne hsame]

/-- A row is written. -/
theorem walk_wrote (hstored : stored registry = before ++ model :: models) (new : Row)
    (hwalk : Walk F keys s before (model :: models) (row :: rows) last) :
    Walk F keys (s.wrote model.1 row new) before (model :: models) rows last := by
  obtain ⟨hrow, hids⟩ := List.nodup_cons.mp hwalk.ids
  refine ⟨fun m hm r hr => (hwalk.past m hm r hr).wrote, ?_, ?_,
    fun r hr => hwalk.inside r (List.mem_cons_of_mem _ hr), hids, ?_, fun m hm i => ?_⟩
  · rintro _ ⟨⟩ r hr hle
    by_cases hid : r.id = row.id
    · refine .inl ?_
      rw [hid, wrote_self]
      exact Option.some_ne_none _
    · refine (hwalk.current model rfl r hr hle).wrote.imp_right fun hc column hcol =>
        (hc column hcol).imp_right ?_
      rintro ⟨read, hread, hreadid, hsame⟩
      obtain rfl | hread := List.mem_cons.mp hread
      · exact absurd hreadid.symm hid
      · exact ⟨read, hread, hreadid, hsame⟩
  · rintro _ ⟨⟩ r hr
    rw [wrote_of_ne fun h => hrow (h.2 ▸ List.mem_map_of_mem hr)]
    exact hwalk.pending model rfl r (List.mem_cons_of_mem _ hr)
  · rintro _ ⟨⟩ i hi
    have hrow := hwalk.inside row List.mem_cons_self
    rw [wrote_of_ne fun h => by omega]
    exact hwalk.ahead model rfl i hi
  · have hnodup := stored_nodup registry
    rw [hstored, List.map_append, List.map_cons] at hnodup
    have hother : m.1 ≠ model.1 := by
      intro he
      have hnot := (List.nodup_cons.mp hnodup.of_append_right).1
      exact hnot (he ▸ List.mem_map_of_mem hm)
    rw [wrote_of_ne fun h => hother h.1]
    exact hwalk.later m hm i

/-- A row that is still as it was read is one everybody sees. -/
theorem mem_unchanged (h : Inv F keys registry db₀ s) {current : Row}
    (hw : s.written model.1 row.id = none) (hcurrent : current ∈ s.unchanged model row) :
    current ∈ s.committed model.1 ∧ current.id = row.id ∧
      ∀ column ∈ model.2, current.secrets column = row.secrets column := by
  obtain ⟨hview, hsame⟩ := List.mem_filter.mp hcurrent
  obtain ⟨hid, hcolumns⟩ := of_decide_eq_true hsame
  exact ⟨mem_committed_of_view h hview (hid ▸ hw), hid, hcolumns⟩

theorem filled_set (hF : F.Lawful) {current : Row} {columns : List String}
    {changes : List (String × Option String)}
    (hchanges : rewriteRow F keys draws row columns = .ok changes)
    (hfilled : ∀ column, decrypt F keys (current.secrets column) ≠ some "") (column : String) :
    decrypt F keys ((current.set changes).secrets column) ≠ some "" := by
  rw [set_secrets, lookup_rewriteRow hchanges column]
  split_ifs with hc
  · exact filled_encrypt hF
  · exact hfilled column

theorem inv_wrote (hF : F.Lawful) (h : Inv F keys registry db₀ s) (hmodel : model ∈ stored registry)
    {current : Row} {changes : List (String × Option String)}
    (hchanges : rewriteRow F keys draws row model.2 = .ok changes)
    (hcurrent : current ∈ s.committed model.1) (hid : current.id = row.id)
    (hsame : ∀ column ∈ model.2, current.secrets column = row.secrets column) :
    Inv F keys registry db₀ (s.wrote model.1 row (current.set changes)) := by
  have hfilled := h.sound.filled model.1 current hcurrent
  refine ⟨h.others, h.alike, h.sound, fun table i read new hw => ?_⟩
  by_cases hplace : table = model.1 ∧ i = row.id
  · obtain ⟨rfl, rfl⟩ := hplace
    rw [wrote_self, Option.some.injEq, Prod.mk.injEq] at hw
    obtain ⟨rfl, rfl⟩ := hw
    refine ⟨current, hcurrent, hid, rfl, fun column hc => ?_, fun column hc => ?_,
      fun column hc => ?_, filled_set hF hchanges hfilled⟩
    · exact hsame column ((secretColumn_iff hmodel).mp hc)
    · exact renewed_set hF hchanges hsame ((secretColumn_iff hmodel).mp hc) (hfilled column)
    · exact set_secrets_of_notMem hchanges fun hm => hc ((secretColumn_iff hmodel).mpr hm)
  · rw [wrote_of_ne hplace] at hw
    exact h.held table i read new hw

theorem inv_rollback (h : Inv F keys registry db₀ s) (e : Error) :
    Inv F keys registry db₀ (s.rollback e) :=
  ⟨h.others, h.alike, h.sound, fun _ _ _ _ hw => absurd hw.symm (Option.some_ne_none _)⟩

/-! ## The end -/

/-- A row once a rewrite is committed: each secret is opened by the first key alone, to what it held,
and what was not written was changed by others. -/
structure Carried (F : Fernet κ δ) (keys : Keys κ) (registry : Registry) (s : Rotation)
    (table : String) (row row' : Row) : Prop where
  id : row'.id = row.id
  secret : ∀ column, SecretColumn registry table column →
    Renewed F keys (row.secrets column) (row'.secrets column)
  other : ∀ column, ¬ SecretColumn registry table column → row'.secrets column = row.secrets column
  visited : ∀ column, SecretColumn registry table column → ¬ Blank (row.secrets column) →
    s.written table row.id ≠ none ∨ s.touched table row.id column
  asRead : ∀ read new, s.written table row.id = some (read, new) →
    ∀ column, SecretColumn registry table column → row.secrets column = read.secrets column

/-- A rewrite that came to its end carried over what others left of the database, all of it. -/
def Committed (F : Fernet κ δ) (keys : Keys κ) (registry : Registry) (s : Rotation) : Prop :=
  ∀ table, List.Forall₂ (Carried F keys registry s table) (s.elsewhere table) (s.committed table)

/-- What others wrote with the first key is opened by it alone. -/
theorem Settled.renewed (hF : F.Lawful) {column : String}
    (h : Settled F keys s table row column) :
    Renewed F keys (row.secrets column) (row.secrets column) := by
  obtain hb | ⟨-, draw, text, htext, hsealed⟩ := h
  · exact .inl ⟨hb, rfl⟩
  · rw [hsealed]
    exact .inr ⟨text, decrypt_encrypt hF htext, decrypt_alone hF htext⟩

theorem carried_seen (hF : F.Lawful) (h : Inv F keys registry db₀ s)
    (hwalk : Walk F keys s (stored registry) [] [] last) (hrow : row ∈ s.committed table) :
    Carried F keys registry s table row (s.seen table row) := by
  cases hw : s.written table row.id with
  | none =>
    rw [seen_of_none hw]
    have hsettled {column : String} (hc : SecretColumn registry table column) :
        Settled F keys s table row column := by
      obtain ⟨model, hmodel, rfl, hcol⟩ := stored_of_secretColumn hc
      obtain hwritten | hcolumns := hwalk.past model hmodel row hrow
      · exact absurd hw hwritten
      · obtain hs | ⟨read, hread, -⟩ := hcolumns column hcol
        · exact hs
        · cases hread
    refine ⟨rfl, fun column hc => (hsettled hc).renewed hF, fun _ _ => rfl, fun column hc hb => ?_,
      fun read new hw' => absurd (hw.symm.trans hw').symm (Option.some_ne_none _)⟩
    exact .inr ((hsettled hc).resolve_left hb).1
  | some p =>
    obtain ⟨r, hr, hid, hheld⟩ := h.held table row.id p.1 p.2 hw
    obtain rfl := row_eq h.sound hr hrow hid
    have hseen : s.seen table r = p.2 := by rw [seen, hw]
    rw [hseen]
    refine ⟨hheld.id, hheld.secret, hheld.other, fun _ _ _ => .inl (hw ▸ Option.some_ne_none _),
      fun read new hw' column hc => ?_⟩
    obtain rfl := Option.some.inj (hw.symm.trans hw')
    exact hheld.same column hc

theorem committed_view (hF : F.Lawful) (h : Inv F keys registry db₀ s)
    (hwalk : Walk F keys s (stored registry) [] [] last) :
    Committed F keys registry
      { s with committed := s.view, phase := .ended (.ok s.rewritten) } := by
  intro table
  change List.Forall₂ _ (s.elsewhere table) ((s.committed table).map (s.seen table))
  rw [← h.alike, List.forall₂_map_right_iff, List.forall₂_same]
  intro row hrow
  have hrow := carried_seen hF h hwalk hrow
  exact ⟨hrow.id, hrow.secret, hrow.other, hrow.visited, hrow.asRead⟩

theorem sound_view (h : Inv F keys registry db₀ s) : Sound F keys s.view where
  ids table := by
    rw [view_ids h]
    exact h.sound.ids table
  positive table row hrow := by
    obtain ⟨r, hr, rfl⟩ := List.mem_map.mp hrow
    rw [seen_id h]
    exact h.sound.positive table r hr
  filled table row hrow column := by
    obtain ⟨r, hr, rfl⟩ := List.mem_map.mp hrow
    cases hw : s.written table r.id with
    | none =>
      rw [seen_of_none hw]
      exact h.sound.filled table r hr column
    | some p =>
      obtain ⟨_, _, _, hheld⟩ := h.held table r.id p.1 p.2 hw
      rw [seen, hw]
      exact hheld.filled column

end FastKit.Secrets.Rotation
