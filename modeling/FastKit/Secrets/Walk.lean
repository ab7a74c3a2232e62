import FastKit.Services.Rotation

/-! # A walk over rows that others change

What holds of a database at every statement of a rewrite: each row it wrote is still what it read of
it, and each row it went past is written, or holds only what others wrote with the first key since
the rewrite began.
-/

namespace FastKit.Secrets

open Picks (sortedBy)

variable {κ δ : Type} {F : Fernet κ δ} {keys : Keys κ} {draws : String → δ}

/-! ## A row -/

/-- A secret that was rewritten: the first key alone opens it, to what it was. -/
def Renewed (F : Fernet κ δ) (keys : Keys κ) (kept kept' : Option String) : Prop :=
  (Blank kept ∧ kept' = kept) ∨
    ∃ text, decrypt F keys kept = some text ∧ decrypt F keys.alone kept' = some text

theorem set_secrets {row : Row} {changes : List (String × Option String)} {column : String} :
    (row.set changes).secrets column = (changes.lookup column).getD (row.secrets column) := rfl

/-- What is written of each column of a row. -/
theorem lookup_rewriteRow {row : Row} {columns : List String}
    {changes : List (String × Option String)}
    (h : rewriteRow F keys draws row columns = .ok changes) (column : String) :
    changes.lookup column = if column ∈ columns ∧ ¬ Blank (row.secrets column) then
      some (encrypt F keys (draws column) (decrypt F keys (row.secrets column))) else none := by
  induction columns generalizing changes with
  | nil =>
    obtain rfl := Except.ok.inj h
    simp
  | cons c columns ih =>
    rw [rewriteRow] at h
    split_ifs at h with hb
    · rw [ih h]
      by_cases hc : column = c
      · simp [hc, hb]
      · simp [hc]
    · cases ho : decrypt F keys (row.secrets c) with
      | none => simp [ho] at h
      | some opened =>
        rw [ho] at h
        cases hr : rewriteRow F keys draws row columns with
        | error e => simp [hr, Except.map] at h
        | ok rest =>
          rw [hr] at h
          obtain rfl := Except.ok.inj h
          by_cases hc : column = c
          · simp [hc, hb, ho]
          · simp [List.lookup_cons, beq_eq_false_iff_ne.mpr hc, hc, ih hr]

/-- What a row is rewritten for is opened. -/
theorem opened_of_rewriteRow {row : Row} {columns : List String}
    {changes : List (String × Option String)}
    (h : rewriteRow F keys draws row columns = .ok changes) {column : String}
    (hc : column ∈ columns) (hb : ¬ Blank (row.secrets column)) :
    ∃ text, decrypt F keys (row.secrets column) = some text := by
  induction columns generalizing changes with
  | nil => cases hc
  | cons c columns ih =>
    rw [rewriteRow] at h
    split_ifs at h with hbc
    · obtain rfl | hc := List.mem_cons.mp hc
      · exact absurd hbc hb
      · exact ih h hc
    · cases ho : decrypt F keys (row.secrets c) with
      | none => simp [ho] at h
      | some opened =>
        obtain rfl | hc := List.mem_cons.mp hc
        · exact ⟨opened, ho⟩
        · rw [ho] at h
          cases hr : rewriteRow F keys draws row columns with
          | error e => simp [hr, Except.map] at h
          | ok rest => exact ih hr hc

/-- Nothing is written of a row where it has no secret. -/
theorem blank_of_rewriteRow {row : Row} {columns : List String}
    (h : rewriteRow F keys draws row columns = .ok []) {column : String} (hc : column ∈ columns) :
    Blank (row.secrets column) := by
  by_contra hb
  have hl := lookup_rewriteRow h column
  rw [if_pos ⟨hc, hb⟩] at hl
  cases hl

/-- What is written in a column is what it held, sealed with the first key. -/
theorem renewed_set (hF : F.Lawful) {row current : Row} {columns : List String}
    {changes : List (String × Option String)}
    (h : rewriteRow F keys draws row columns = .ok changes)
    (hsame : ∀ column ∈ columns, current.secrets column = row.secrets column) {column : String}
    (hc : column ∈ columns) (hfull : decrypt F keys (current.secrets column) ≠ some "") :
    Renewed F keys (current.secrets column) ((current.set changes).secrets column) := by
  rw [hsame column hc] at hfull ⊢
  rw [set_secrets, lookup_rewriteRow h column]
  by_cases hb : Blank (row.secrets column)
  · rw [if_neg fun h => h.2 hb]
    exact .inl ⟨hb, hsame column hc⟩
  · obtain ⟨text, ho⟩ := opened_of_rewriteRow h hc hb
    rw [if_pos ⟨hc, hb⟩, ho]
    refine .inr ⟨text, ho, ?_⟩
    have htext : text ≠ "" := fun he => hfull (he ▸ ho)
    exact decrypt_alone hF htext

/-- Other columns stay as they are. -/
theorem set_secrets_of_notMem {row current : Row} {columns : List String}
    {changes : List (String × Option String)}
    (h : rewriteRow F keys draws row columns = .ok changes) {column : String}
    (hc : column ∉ columns) : (current.set changes).secrets column = current.secrets column := by
  rw [set_secrets, lookup_rewriteRow h column, if_neg fun h => hc h.1]
  rfl

/-! ## A database -/

/-- A column of secrets of a table. -/
def SecretColumn (registry : Registry) (table column : String) : Prop :=
  ∃ mapper ∈ registry.mappers, mapper.table = table ∧ column ∈ mapper.secrets

/-- What a database holds: rows by their ids, and no secret that is empty, as none is encrypted. -/
structure Sound (F : Fernet κ δ) (keys : Keys κ) (db : Database) : Prop where
  ids : ∀ table, ((db table).map Row.id).Nodup
  positive : ∀ table, ∀ row ∈ db table, 0 < row.id
  filled : ∀ table, ∀ row ∈ db table, ∀ column, decrypt F keys (row.secrets column) ≠ some ""

def Others (F : Fernet κ δ) (keys : Keys κ) : Database → Database → Prop :=
  Relation.ReflTransGen (Rotation.Elsewhere F keys fun _ _ => False)

theorem filled_encrypt (hF : F.Lawful) {draw : δ} {raw : Option String} :
    decrypt F keys (encrypt F keys draw raw) ≠ some "" := by
  by_cases hb : Blank raw
  · rw [encrypt_blank hb, decrypt_blank blank_none]
    exact Option.some_ne_none "" |>.symm
  · cases raw with
    | none => exact absurd blank_none hb
    | some text =>
      rw [decrypt_encrypt hF (not_blank_some.mp hb), ne_eq, Option.some.injEq]
      exact not_blank_some.mp hb

namespace Rotation

variable {locked : String → ℕ → Prop} {db db' : Database} {s : Rotation} {registry : Registry}

theorem Elsewhere.sound (hF : F.Lawful) (h : Elsewhere F keys locked db db')
    (hdb : Sound F keys db) : Sound F keys db' where
  ids := h.ids
  positive := h.positive
  filled table row' hrow' column := by
    obtain ⟨row, hrow, -, hsame⟩ | ⟨draw, raw, hnew⟩ := h.wrote table row' hrow' column
    · exact hsame ▸ hdb.filled table row hrow column
    · rw [hnew]
      exact filled_encrypt hF

theorem Elsewhere.unlocked (h : Elsewhere F keys locked db db') :
    Elsewhere F keys (fun _ _ => False) db db' :=
  ⟨h.ids, h.positive, fun _ _ hlocked => hlocked.elim, h.wrote⟩

theorem row_eq (hdb : Sound F keys db) {table : String} {row row' : Row} (hrow : row ∈ db table)
    (hrow' : row' ∈ db table) (h : row.id = row'.id) : row = row' :=
  List.inj_on_of_nodup_map (hdb.ids table) hrow hrow' h

/-- A column that needs no rewriting: it holds nothing, or what others wrote with the first key since
the rewrite began. -/
def Settled (F : Fernet κ δ) (keys : Keys κ) (s : Rotation) (table : String) (row : Row)
    (column : String) : Prop :=
  Blank (row.secrets column) ∨ (s.touched table row.id column ∧
    ∃ draw text, text ≠ "" ∧ row.secrets column = encrypt F keys draw (some text))

/-- A row that is written, or whose columns need no rewriting, other than those that are still as
the rows to come have them. -/
def Accounted (F : Fernet κ δ) (keys : Keys κ) (s : Rotation) (model : Model) (rows : List Row)
    (row : Row) : Prop :=
  s.written model.1 row.id ≠ none ∨ ∀ column ∈ model.2, Settled F keys s model.1 row column ∨
    ∃ read ∈ rows, read.id = row.id ∧ row.secrets column = read.secrets column

/-- A rewrite in the middle of its walk, the first of `models` being the one it walks. -/
structure Walk (F : Fernet κ δ) (keys : Keys κ) (s : Rotation) (before models : List Model)
    (rows : List Row) (last : ℕ) : Prop where
  past : ∀ model ∈ before, ∀ row ∈ s.committed model.1, Accounted F keys s model [] row
  current : ∀ model ∈ models.head?, ∀ row ∈ s.committed model.1, row.id ≤ last →
    Accounted F keys s model rows row
  pending : ∀ model ∈ models.head?, ∀ row ∈ rows, s.written model.1 row.id = none
  inside : ∀ row ∈ rows, row.id ≤ last
  ids : (rows.map Row.id).Nodup
  ahead : ∀ model ∈ models.head?, ∀ i, last < i → s.written model.1 i = none
  later : ∀ model ∈ models.tail, ∀ i, s.written model.1 i = none

/-- A row that is written is for everybody else what was read of it, and for the transaction what it
is rewritten to. -/
structure Held (F : Fernet κ δ) (keys : Keys κ) (registry : Registry) (table : String)
    (read new row : Row) : Prop where
  id : new.id = row.id
  same : ∀ column, SecretColumn registry table column → row.secrets column = read.secrets column
  secret : ∀ column, SecretColumn registry table column →
    Renewed F keys (row.secrets column) (new.secrets column)
  other : ∀ column, ¬ SecretColumn registry table column → new.secrets column = row.secrets column
  filled : ∀ column, decrypt F keys (new.secrets column) ≠ some ""

/-- What holds at every statement of a rewrite. -/
structure Inv (F : Fernet κ δ) (keys : Keys κ) (registry : Registry) (db : Database)
    (s : Rotation) : Prop where
  others : Others F keys db s.elsewhere
  alike : s.committed = s.elsewhere
  sound : Sound F keys s.committed
  held : ∀ table i read new, s.written table i = some (read, new) →
    ∃ row ∈ s.committed table, row.id = i ∧ Held F keys registry table read new row

def At (F : Fernet κ δ) (keys : Keys κ) (registry : Registry) (s : Rotation) : Prop :=
  match s.phase with
  | .reading models last => ∃ before, stored registry = before ++ models ∧
      Walk F keys s before models [] last
  | .writing model models rows last => ∃ before, stored registry = before ++ model :: models ∧
      Walk F keys s before (model :: models) rows last
  | .ended _ => True

/-! ## What others do -/

/-- The rewrite once others changed the database. -/
def changed (s : Rotation) (db : Database) : Rotation :=
  { s with
    committed := db
    elsewhere := db
    touched := fun table i column =>
      s.touched table i column ∨ Touches s.committed db table i column }

theorem accounted_changed {model : Model} {rows : List Row} {row' : Row}
    (hother : Elsewhere F keys locked s.committed db) (hrow' : row' ∈ db model.1)
    (h : ∀ row ∈ s.committed model.1, row.id = row'.id → Accounted F keys s model rows row) :
    Accounted F keys (s.changed db) model rows row' := by
  by_cases hw : s.written model.1 row'.id = none
  · refine .inr fun column hc => ?_
    by_cases hold : ∃ row ∈ s.committed model.1, row.id = row'.id ∧
        row.secrets column = row'.secrets column
    · obtain ⟨row, hrow, hid, hsame⟩ := hold
      obtain hwritten | hcolumns := h row hrow hid
      · exact absurd (hid ▸ hw) hwritten
      · rw [Settled, ← hsame, ← hid]
        exact (hcolumns column hc).imp_left fun hs => hs.imp_right fun ht => ⟨.inl ht.1, ht.2⟩
    · obtain ⟨row, hrow, hid, hsame⟩ | ⟨draw, raw, hnew⟩ := hother.wrote _ row' hrow' column
      · exact absurd ⟨row, hrow, hid, hsame⟩ hold
      · refine .inl ?_
        by_cases hb : Blank raw
        · exact .inl (by rw [hnew, encrypt_blank hb]; exact blank_none)
        · cases raw with
          | none => exact absurd blank_none hb
          | some text =>
            refine .inr ⟨.inr ?_, draw, text, not_blank_some.mp hb, hnew⟩
            intro row hrow row'' hrow'' hid hid' hsame
            obtain rfl := List.inj_on_of_nodup_map (hother.ids _) hrow'' hrow' hid'
            exact hold ⟨row, hrow, hid, hsame⟩
  · exact .inl hw

theorem walk_changed {before models : List Model} {rows : List Row} {last : ℕ}
    (hother : Elsewhere F keys locked s.committed db) (h : Walk F keys s before models rows last) :
    Walk F keys (s.changed db) before models rows last where
  past model hmodel _ hrow' :=
    accounted_changed hother hrow' fun row hrow _ => h.past model hmodel row hrow
  current model hmodel _ hrow' hle :=
    accounted_changed hother hrow' fun row hrow hid => h.current model hmodel row hrow (hid ▸ hle)
  pending := h.pending
  inside := h.inside
  ids := h.ids
  ahead := h.ahead
  later := h.later

theorem inv_changed {db₀ : Database} (hF : F.Lawful)
    (hother : Elsewhere F keys (fun table i => s.written table i ≠ none) s.committed db)
    (h : Inv F keys registry db₀ s) : Inv F keys registry db₀ (s.changed db) where
  others := by
    have hothers := h.others
    rw [← h.alike] at hothers
    exact hothers.tail hother.unlocked
  alike := rfl
  sound := hother.sound hF h.sound
  held table i read new hw := by
    obtain ⟨row, hrow, hid, hheld⟩ := h.held table i read new hw
    refine ⟨row, (hother.kept table row ?_).mpr hrow, hid, hheld⟩
    change s.written table i = _ at hw
    rw [hid, hw]
    exact Option.some_ne_none _

theorem at_changed (hother : Elsewhere F keys locked s.committed db) (h : At F keys registry s) :
    At F keys registry (s.changed db) := by
  have hphase : (s.changed db).phase = s.phase := rfl
  rw [At] at h ⊢
  rw [hphase]
  cases hp : s.phase with
  | reading models last =>
    rw [hp] at h
    obtain ⟨before, hstored, hwalk⟩ := h
    exact ⟨before, hstored, walk_changed hother hwalk⟩
  | writing model models rows last =>
    rw [hp] at h
    obtain ⟨before, hstored, hwalk⟩ := h
    exact ⟨before, hstored, walk_changed hother hwalk⟩
  | ended result => trivial

end Rotation

end FastKit.Secrets
