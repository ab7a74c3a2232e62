import FastKit.Transaction.Commits
import FastKit.Uploads.Mentions

/-! # Saved keys

A save that is refused changes nothing. In one that is accepted, a file column holds the key of a
stored file its row mentions, unless it holds another text with the UUIDs the row named before.
-/

namespace FastKit.Uploads
open Text Transaction Transaction.Program

def heldUuids (owner : Owner) (s : Media) : List (List Char) := (heldBy owner s).map Prod.fst

def Mentions (owner : Owner) (f : StoredFile) (s : Media) : Prop :=
  ∃ m ∈ s.mentions, m.storedFileId = f.id ∧ m.owner = owner

/-- The files of one store are those of another, whatever claimed them. -/
structure SameFiles (s t : Media) : Prop where
  stays : ∀ f ∈ s.files, ∃ f' ∈ t.files, f'.id = f.id ∧ f'.uuid = f.uuid ∧ f'.key = f.key
  kept : ∀ f ∈ t.files, ∃ f' ∈ s.files, f'.id = f.id ∧ f'.uuid = f.uuid ∧ f'.key = f.key

theorem SameFiles.refl (s : Media) : SameFiles s s :=
  ⟨fun f hf => ⟨f, hf, rfl, rfl, rfl⟩, fun f hf => ⟨f, hf, rfl, rfl, rfl⟩⟩

/-- What a mention leaves behind: its owner names every file of its values, and every key that
carries a UUID named anew is stored. -/
structure Mentioned (owner : Owner) (values keys : List (List Char)) (s t : Media) : Prop where
  records : t.records = s.records
  files : SameFiles s t
  names : ∀ f ∈ t.files, f.uuid ∈ values → Mentions owner f t
  fresh : ∀ key ∈ keys, (∃ u ∈ uuidsIn key, u ∈ values ∧ u ∉ heldUuids owner s) →
    ∃ f ∈ t.files, f.key = key

variable {γ : Type} {C : Contract γ Unit Media} {g : γ} {b v : Media} {owner : Owner}
  {values keys : List (List Char)}

/-- What an owner names is what its mentions say. -/
theorem mem_heldUuids {s : Media} {u : List Char} :
    u ∈ heldUuids owner s ↔ ∃ f ∈ s.files, f.uuid = u ∧ Mentions owner f s := by
  simp only [heldUuids, heldBy, List.mem_map, List.mem_filterMap]
  constructor
  · rintro ⟨⟨u', i⟩, ⟨m, hm, hh⟩, rfl⟩
    split_ifs at hh with howner
    obtain ⟨f, hf, hfu⟩ := Option.map_eq_some_iff.mp hh
    obtain ⟨rfl, rfl⟩ := Prod.mk.inj hfu
    exact ⟨f, Table.mem_of_get hf, rfl, m, hm, (Table.id_of_get hf).symm, howner⟩
  · rintro ⟨f, hf, rfl, m, hm, hid, howner⟩
    refine ⟨(f.uuid, m.id), ⟨m, hm, ?_⟩, rfl⟩
    have hget : s.files.get f.id = some f := Table.get_of_mem hf
    rw [if_pos howner, hid, hget]
    rfl

theorem insertOrRead_meets {storedFileId : ℕ}
    {post : γ → Except Refusal (Option StoredFileMention × Unit) → Media → Media → Prop}
    (hok : ∀ m t, (∀ m' ∈ v.mentions, m' ∈ t) → m ∈ t → mentionOf storedFileId owner m = true →
      post g (.ok (some m, ())) b { v with mentions := t })
    (hnone : post g (.ok (none, ())) b v) :
    (insertOrRead storedFileId owner).Meets C post g () b v := by
  unfold insertOrRead
  simp only [meets_bind, meets_query, ending_ok]
  cases hf : v.mentions.find (mentionOf storedFileId owner) with
  | some m => exact hok m v.mentions (fun _ h => h) (Table.mem_of_find hf) (Table.find_holds hf)
  | none =>
    simp only [meets_bind, meets_query, ending_ok]
    split
    · rename_i m t hins
      obtain ⟨f, -, hins⟩ := Option.bind_eq_some_iff.mp hins
      refine hok m t (fun m' hm' => (Table.mem_insert hins).mpr (.inl hm'))
        ((Table.mem_insert hins).mpr (.inr rfl)) ?_
      rw [(Table.insert_eq_some hins).1]
      simp [mentionOf]
    · rw [meets_query, hf]
      exact hnone

/-- Each file is mentioned, or the whole is refused. -/
theorem mentionEach_meets {post : γ → Except Refusal (Unit × Unit) → Media → Media → Prop}
    (ids : List ℕ)
    (hok : ∀ t, (∀ m ∈ v.mentions, m ∈ t) →
      (∀ id ∈ ids, ∃ m ∈ t, m.storedFileId = id ∧ m.owner = owner) →
      post g (.ok ((), ())) b { v with mentions := t })
    (herr : ∀ e t, post g (.error e) b { v with mentions := t }) :
    (mentionEach owner ids).Meets C post g () b v := by
  induction ids generalizing v with
  | nil => exact hok v.mentions (fun _ h => h) fun _ h => absurd h List.not_mem_nil
  | cons id rest ih =>
    unfold mentionEach
    rw [meets_bind]
    refine insertOrRead_meets (fun m t hkept hm hof => ?_) (herr _ v.mentions)
    rw [ending_ok]
    refine ih (fun t' hkept' hrest => hok t' (fun m' hm' => hkept' m' (hkept m' hm')) ?_)
      fun e t' => herr e t'
    intro id' hid'
    rcases List.mem_cons.mp hid' with rfl | hid'
    · simp only [mentionOf, Bool.and_eq_true, beq_iff_eq] at hof
      exact ⟨m, hkept' m hm, hof⟩
    · exact hrest id' hid'

/-- What was mentioned and is named still is mentioned still. -/
theorem mentions_erased {named : List (List Char)} {f : StoredFile} (hf : f ∈ v.files)
    (hn : f.uuid ∈ named) (h : Mentions owner f v) : ∃ m ∈ v.mentions.erase (fun m =>
      (heldBy owner v).any (fun h => h.2 == m.id && h.1 ∉ named)),
      m.storedFileId = f.id ∧ m.owner = owner := by
  obtain ⟨m, hm, hid, howner⟩ := h
  refine ⟨m, Table.mem_erase.mpr ⟨hm, List.any_eq_false.mpr ?_⟩, hid, howner⟩
  rintro ⟨u, i⟩ hheld
  simp only [heldBy, List.mem_filterMap] at hheld
  obtain ⟨m', hm', hh⟩ := hheld
  split_ifs at hh with howner'
  obtain ⟨f', hf', hfu⟩ := Option.map_eq_some_iff.mp hh
  obtain ⟨rfl, rfl⟩ := Prod.mk.inj hfu
  intro hand
  simp only [Bool.and_eq_true, beq_iff_eq, decide_eq_true_eq] at hand
  obtain rfl : m' = m := Table.eq_of_id hm' hm hand.1
  obtain rfl : f' = f := Table.eq_of_id (Table.mem_of_get hf') hf
    ((Table.id_of_get hf').trans hid)
  exact hand.2 hn

theorem mention_meets {post : γ → Except Refusal (List (List Char) × Unit) → Media → Media → Prop}
    (hself : ∀ u, u ∈ namedIn (values.map some) ↔ u ∈ values)
    (hok : ∀ dropped t, Mentioned owner values keys v t → post g (.ok (dropped, ())) b t)
    (herr : ∀ e t, post g (.error e) b t) : (mention owner values keys).Meets C post g () b v := by
  unfold mention
  simp only [meets_bind, meets_query, meets_execute, ending_ok]
  generalize hnamed : namedIn (values.map some) = named at hself ⊢
  refine meets_ite.mpr ⟨fun hnone => ?_, fun hsome => ?_⟩
  · -- nothing is named anew, so what is named is mentioned already
    have hheld : ∀ u ∈ values, u ∈ heldUuids owner v := fun u hu => by
      by_contra hnot
      have hadded : u ∈ named.filter (· ∉ (heldBy owner v).map Prod.fst) :=
        List.mem_filter.mpr ⟨(hself u).mpr hu, decide_eq_true hnot⟩
      rw [hnone] at hadded
      exact List.not_mem_nil hadded
    have hsame := SameFiles.refl v
    refine hok _ _ ⟨rfl, ⟨hsame.stays, hsame.kept⟩, fun f hf hu => ?_, fun key _ hnew => ?_⟩
    rotate_left
    · obtain ⟨u, -, hu, hnot⟩ := hnew
      exact absurd (hheld u hu) hnot
    obtain ⟨f', hf', huu, hm⟩ := mem_heldUuids.mp (hheld f.uuid hu)
    obtain rfl : f' = f := Table.eq_of_key hf' hf (List.mem_singleton.mpr huu.symm)
      (List.mem_singleton.mpr rfl)
    exact mentions_erased hf ((hself _).mpr hu) hm
  · simp only [meets_bind, meets_query, meets_execute, ending_ok]
    generalize hadded : named.filter (· ∉ (heldBy owner v).map Prod.fst) = added at hsome ⊢
    have hmem : ∀ u, u ∈ added ↔ u ∈ values ∧ u ∉ heldUuids owner v := fun u => by
      rw [← hadded, List.mem_filter, hself, decide_eq_true_eq]
      rfl
    refine meets_ite.mpr ⟨fun hfresh => ?_, fun _ => herr _ _⟩
    rw [meets_bind]
    refine mentionEach_meets _ (fun t hkept hnew => ?_) fun e t => herr e _
    rw [ending_ok, meets_pure]
    refine hok _ _ ⟨rfl, ⟨fun f hf => ?_, fun f hf => ?_⟩, fun f hf hu => ?_,
      fun key hkey hnamed => ?_⟩
    · exact Table.exists_modify (still_claim v.clock)
        (fun f f' => f'.id = f.id ∧ f'.uuid = f.uuid ∧ f'.key = f.key)
        (fun _ => ⟨rfl, rfl, rfl⟩) (fun _ => ⟨rfl, rfl, rfl⟩) hf
    · obtain ⟨f₀, hf₀, rfl⟩ := (Table.mem_modify (still_claim v.clock)).mp hf
      exact ⟨f₀, hf₀, by split_ifs <;> exact ⟨rfl, rfl, rfl⟩⟩
    · by_cases hheld : f.uuid ∈ heldUuids owner v
      · obtain ⟨f₀, hf₀, hclaimed⟩ := (Table.mem_modify (still_claim v.clock)).mp hf
        obtain ⟨f', hf', huu, hm⟩ := mem_heldUuids.mp hheld
        obtain ⟨hid, hsame⟩ : f.id = f₀.id ∧ f.uuid = f₀.uuid := by
          rw [← hclaimed]
          split_ifs <;> exact ⟨rfl, rfl⟩
        rw [hsame] at huu hu
        obtain rfl : f' = f₀ := Table.eq_of_key hf' hf₀ (List.mem_singleton.mpr huu.symm)
          (List.mem_singleton.mpr rfl)
        obtain ⟨m, hm, hmid, howner⟩ := mentions_erased hf₀ ((hself _).mpr hu) hm
        exact ⟨m, hkept m hm, hmid.trans hid.symm, howner⟩
      · refine hnew f.id (List.mem_map.mpr ⟨f, Table.mem_select.mpr ⟨hf, ?_⟩, rfl⟩)
        exact decide_eq_true ((hmem _).mpr ⟨hu, hheld⟩)
    · obtain ⟨u, hukey, hu⟩ := hnamed
      have hstored := List.all_eq_true.mp hfresh key (List.mem_filter.mpr ⟨hkey,
        List.any_eq_true.mpr ⟨u, hukey, decide_eq_true ((hmem u).mpr hu)⟩⟩)
      obtain ⟨f, hf, hfkey⟩ := List.any_eq_true.mp hstored
      exact ⟨f, hf, beq_iff_eq.mp hfkey⟩

/-- A save: a new row, or an edit of one. -/
inductive Write where
  | create (data : Payload)
  | update (id : ℕ) (data : Payload)

def Write.serve (R : Resource) : Write → Db Record
  | .create data => FastKit.Uploads.create R data
  | .update id data => FastKit.Uploads.update R id data

def Write.before (s : Media) : Write → Option Record
  | .create _ => none
  | .update id _ => s.records.get id

/-- The keys a save gives the file columns of a row that carry a UUID and are not what the row held
there before. -/
def Gives (R : Resource) (before : Option Record) (row : Record) (key : List Char) : Prop :=
  ∃ field ∈ R.fileFields, row.columns field.1 = some key ∧
    before.bind (·.columns field.1) ≠ some key ∧ uuidsIn key ≠ []

/-- Every key a save gave is the key of a stored file the row mentions. -/
def Saved (R : Resource) (before : Option Record) (row : Record) (t : Media) : Prop :=
  ∀ key, Gives R before row key → ∃ f ∈ t.files, f.key = key ∧ Mentions (R.ownerOf row) f t

/-- Every key given whose UUIDs the row named already is the key of a stored file. -/
def Unborrowed (R : Resource) (before : Option Record) (row : Record) (s : Media) : Prop :=
  ∀ key, Gives R before row key → (∀ u ∈ uuidsIn key, u ∈ heldUuids (R.ownerOf row) s) →
    ∃ f ∈ s.files, f.key = key

theorem mem_namedIn {vals : List (Option (List Char))} {u : List Char} :
    u ∈ namedIn vals ↔ ∃ value, some value ∈ vals ∧ u ∈ uuidsIn value := by
  simp [namedIn, List.mem_flatMap, List.reduceOption_mem_iff]

/-- What a row mentions is what the UUIDs it mentions mention. -/
theorem mentioned_self (R : Resource) (row : Record) (u : List Char) :
    u ∈ namedIn ((R.mentioned row).map some) ↔ u ∈ R.mentioned row := by
  rw [mem_namedIn]
  constructor
  · rintro ⟨w, hw, hu⟩
    obtain ⟨w', hw', hsome⟩ := List.mem_map.mp hw
    obtain rfl := Option.some.inj hsome
    obtain ⟨value, -, hvalue⟩ := mem_namedIn.mp hw'
    rw [uuidsIn_uuid hvalue, List.mem_singleton] at hu
    rwa [hu]
  · intro hu
    obtain ⟨value, -, hvalue⟩ := mem_namedIn.mp hu
    exact ⟨u, List.mem_map_of_mem hu, by rw [uuidsIn_uuid hvalue]; exact List.mem_singleton_self u⟩

/-- The keys a save gives are among those it compares, with their UUIDs among those it names. -/
theorem gives_kept {R : Resource} {before : Option Record} {row : Record} {key : List Char}
    (h : Gives R before row key) :
    key ∈ R.keysOf row ∧ ∀ u ∈ uuidsIn key, u ∈ R.mentioned row := by
  obtain ⟨field, hfield, hkey, -, hne⟩ := h
  have hname : some key ∈ R.fileFields.map (fun field => row.columns field.1) :=
    List.mem_map.mpr ⟨field, hfield, hkey⟩
  constructor
  · refine List.mem_filter.mpr ⟨List.reduceOption_mem_iff.mpr hname, decide_eq_true ?_⟩
    rintro rfl
    exact hne rfl
  · intro u hu
    refine mem_namedIn.mpr ⟨key, ?_, hu⟩
    refine List.mem_map.mpr ⟨field.1, List.mem_append_left _ (List.mem_map_of_mem hfield), hkey⟩

/-- After the mentions of a row are written, what was given is stored and mentioned exactly where
what it borrowed was stored. -/
theorem Mentioned.saved_iff {R : Resource} {before : Option Record} {row : Record} {s t : Media}
    (h : Mentioned (R.ownerOf row) (R.mentioned row) (R.keysOf row) s t) :
    Saved R before row t ↔ Unborrowed R before row s := by
  constructor
  · intro hsaved key hgives _
    obtain ⟨f, hf, hfkey, -⟩ := hsaved key hgives
    obtain ⟨f', hf', -, -, hkey⟩ := h.files.kept f hf
    exact ⟨f', hf', hkey.trans hfkey⟩
  · intro hfree key hgives
    obtain ⟨hmem, hnamed⟩ := gives_kept hgives
    obtain ⟨f, hf, rfl⟩ : ∃ f ∈ t.files, f.key = key := by
      by_cases hheld : ∀ u ∈ uuidsIn key, u ∈ heldUuids (R.ownerOf row) s
      · obtain ⟨f, hf, hfkey⟩ := hfree key hgives hheld
        obtain ⟨f', hf', -, -, hkey⟩ := h.files.stays f hf
        exact ⟨f', hf', hkey.trans hfkey⟩
      · push Not at hheld
        obtain ⟨u, hu, hnot⟩ := hheld
        exact h.fresh key hmem ⟨u, hu, hnamed u hu, hnot⟩
    exact ⟨f, hf, rfl, h.names f hf (hnamed _ f.named)⟩

theorem checked_reads {α : Type} (e : Except Refusal α) : (checked e : Db α).Reads := by
  cases e with
  | ok a => exact reads_pure a
  | error e => exact reads_raise e

theorem prepared_reads (R : Resource) (data : Payload) (row : Option Record) :
    (R.prepared data row).Reads := by
  refine (reads_query _).bind fun s => (checked_reads _).bind fun _ => ?_
  exact (checked_reads _).bind fun _ => (checked_reads _).bind fun _ => checked_reads _

/-- How a save ends: refused with nothing committed, or accepted with its row in the table. -/
def Settled (R : Resource) (before : Option Record) (s : Media) :
    Unit → Except Refusal (Record × Unit) → Media → Media → Prop :=
  ending (fun _ p b _ => b.records.get p.1.id = some p.1 ∧
    (Saved R before p.1 b ↔ Unborrowed R before p.1 s)) (fun _ _ b _ => b = s)

/-- The contract of a save that runs alone. -/
def saveContract : Contract Unit Unit Media := solo fun _ => True

theorem create_meets (R : Resource) (data : Payload) (s : Media) :
    (create R data).Meets saveContract (Settled R none s) () () s s := by
  unfold create
  rw [meets_bind]
  refine (prepared_reads R data none).meets (fun prepared => ?_) fun _ => rfl
  rw [ending_ok, meets_bind, meets_query, ending_ok]
  split
  · exact rfl
  · rename_i row t hins
    obtain ⟨hins, -⟩ := Option.filter_eq_some_iff.mp hins
    rw [meets_bind, meets_execute, ending_ok, meets_bind]
    refine mention_meets (mentioned_self R row) (fun dropped u hm => ?_) fun _ _ => rfl
    rw [ending_ok, meets_bind]
    refine solo_publish trivial ⟨?_, hm.saved_iff⟩
    have hget : t.get row.id = some row :=
      Table.get_of_mem ((Table.mem_insert hins).mpr (.inr rfl))
    rw [hm.records]
    exact hget

/-- Discarding what nobody names leaves what a row mentions. -/
theorem saved_release {R : Resource} {before : Option Record} {row : Record} {t : Media}
    (uuids : List (List Char)) : Saved R before row (discarded uuids t) ↔ Saved R before row t := by
  constructor
  · intro h key hgives
    obtain ⟨f, hf, hkey, hm⟩ := h key hgives
    exact ⟨f, (Table.mem_erase.mp hf).1, hkey, hm⟩
  · intro h key hgives
    obtain ⟨f, hf, hkey, hm⟩ := h key hgives
    refine ⟨f, Table.mem_erase.mpr ⟨hf, ?_⟩, hkey, hm⟩
    obtain ⟨m, hm, hid, -⟩ := hm
    have hany : t.mentions.rows.any (·.storedFileId == f.id) = true :=
      List.any_eq_true.mpr ⟨m, hm, beq_iff_eq.mpr hid⟩
    rw [hany, Bool.not_true, Bool.and_false]

theorem release_meets {post : Unit → Except Refusal (Unit × Unit) → Media → Media → Prop}
    {t : Media} (values : List (List Char)) (hnone : post () (.ok ((), ())) t t)
    (hok : ∀ uuids, post () (.ok ((), ())) (discarded uuids t) (discarded uuids t)) :
    (release values).Meets saveContract post () () t t := by
  unfold release
  refine meets_ite.mpr ⟨fun _ => hnone, fun _ => ?_⟩
  rw [meets_bind, meets_execute, ending_ok]
  exact solo_publish trivial (hok _)

theorem update_meets (R : Resource) (id : ℕ) (data : Payload) (s : Media) :
    (update R id data).Meets saveContract (Settled R (s.records.get id) s) () () s s := by
  unfold update
  rw [meets_bind, meets_query, ending_ok, meets_bind]
  cases hrow : s.records.get id with
  | none => exact rfl
  | some before =>
    rw [meets_require_some, ending_ok, meets_bind]
    refine (prepared_reads R data _).meets (fun prepared => ?_) fun _ => rfl
    rw [ending_ok, meets_bind, meets_query, ending_ok]
    refine meets_ite.mpr ⟨fun _ => rfl, fun _ => ?_⟩
    rw [meets_bind, meets_execute, ending_ok, meets_bind]
    refine mention_meets (mentioned_self R _) (fun dropped t hm => ?_) fun _ _ => rfl
    rw [ending_ok, meets_bind]
    have hget : t.records.get before.id = some (before.edited prepared) := by
      obtain rfl : before.id = id := Table.id_of_get hrow
      rw [hm.records]
      refine (Table.get_modify (still_edited prepared)).trans ?_
      rw [hrow, Option.map_some, if_pos (beq_iff_eq.mpr rfl)]
    refine solo_publish trivial ?_
    rw [ending_ok, meets_bind]
    refine release_meets _ ⟨hget, hm.saved_iff⟩ fun uuids => ⟨hget, ?_⟩
    exact (saved_release uuids).trans hm.saved_iff

theorem serve_meets (R : Resource) (w : Write) (s : Media) :
    (w.serve R).Meets saveContract (Settled R (w.before s) s) () () s s := by
  cases w with
  | create data => exact create_meets R data s
  | update id data => exact update_meets R id data s

/-- A save that is refused changes nothing. What one that is accepted gives the file columns are
keys of stored files its row mentions exactly where the keys it gives under UUIDs the row named
already are keys of stored files. -/
theorem saved_keys_are_stored (R : Resource) (w : Write) (s : Media) :
    (∀ e t v, (w.serve R).run () s s = (.error e, t, v) → t = s) ∧
    ∀ row t v, (w.serve R).run () s s = (.ok (row, ()), t, v) → t.records.get row.id = some row ∧
      (Saved R (w.before s) row t ↔ Unborrowed R (w.before s) row s) := by
  obtain ⟨_, hpost⟩ := run_of_meets trivial (fun _ _ => rfl) (serve_meets R w s)
  constructor
  · intro e t v hrun
    rw [hrun] at hpost
    exact hpost
  · intro row t v hrun
    rw [hrun] at hpost
    exact hpost

/-- What an owner that named nothing is given is never borrowed. -/
theorem unborrowed_of_new {R : Resource} {before : Option Record} {row : Record} {s : Media}
    (h : heldUuids (R.ownerOf row) s = []) : Unborrowed R before row s := by
  rintro key ⟨-, -, -, -, hne⟩ hheld
  obtain ⟨u, hu⟩ := List.exists_mem_of_ne_nil _ hne
  have hmem := hheld u hu
  rw [h] at hmem
  exact absurd hmem List.not_mem_nil

namespace Shelf

def products : Resource where
  table := "product"
  fileFields := [("image", "images/product".toList), ("file", "files/product".toList)]
  markupFields := ["description", "meta"]
  reachable := fun _ _ _ => .ok ()
  validate := fun _ _ _ => .ok ()
  prepare := fun data _ => .ok data
  admits := fun _ _ => true

def handbook : StoredFile where
  id := 0
  uuid := "7f1c2b40-1d5e-4a8e-9b1f-2d3c4e5f6a7b".toList
  key := "files/product/2026/01/02/7f1c2b40-1d5e-4a8e-9b1f-2d3c4e5f6a7b/handbook.pdf".toList
  claimedAt := none
  named := by decide +kernel

/-- The path of another file, under the UUID of the handbook. -/
def madeUp : List Char :=
  "files/product/2020/01/01/7f1c2b40-1d5e-4a8e-9b1f-2d3c4e5f6a7b/other.epub".toList

/-- A file nobody names yet. -/
def uploaded : Media where
  clock := 0
  files := ⟨[handbook], 1, List.pairwise_singleton _ _, by simp [handbook, Keyed.id]⟩
  mentions := .empty
  records := .empty

/-- The product the handbook is the file of. -/
def published : Media :=
  ((create products [("file", some handbook.key)]).run () uploaded uploaded).2.1

end Shelf

/-- A new product is given a file that is stored. -/
theorem saved_keys_are_stored_new : ∃ row t v,
    (Write.serve Shelf.products (.create [("file", some Shelf.handbook.key)])).run ()
      Shelf.uploaded Shelf.uploaded = (.ok (row, ()), t, v) ∧
    Saved Shelf.products none row t := by
  have hok : (((Write.serve Shelf.products (.create [("file", some Shelf.handbook.key)])).run ()
      Shelf.uploaded Shelf.uploaded).1).toOption.isSome = true := by decide +kernel
  generalize hrun : (Write.serve Shelf.products (.create [("file", some Shelf.handbook.key)])).run ()
    Shelf.uploaded Shelf.uploaded = out at hok
  match out, hok with
  | (.ok (row, ()), t, v), _ =>
    refine ⟨row, t, v, rfl, ?_⟩
    refine ((saved_keys_are_stored _ _ _).2 row t v hrun).2.mpr (unborrowed_of_new ?_)
    rfl

/-- An edit that gives the product a made-up path under the UUID of its own file is accepted. -/
theorem made_up_key_saved : ¬∀ (R : Resource) (w : Write) (s : Media) row t v,
    (w.serve R).run () s s = (.ok (row, ()), t, v) → Saved R (w.before s) row t := by
  intro h
  have hok : (((Write.serve Shelf.products (.update 0 [("file", some Shelf.madeUp)])).run ()
      Shelf.published Shelf.published).1.toOption.any
        fun done => done.1.columns "file" == some Shelf.madeUp) = true ∧
      ((Write.serve Shelf.products (.update 0 [("file", some Shelf.madeUp)])).run ()
        Shelf.published Shelf.published).2.1.files.rows.any (·.key == Shelf.madeUp) = false := by
    decide +kernel
  have hbefore : (Write.before Shelf.published (.update 0 [("file", some Shelf.madeUp)])).bind
      (·.columns "file") ≠ some Shelf.madeUp := by decide +kernel
  generalize hrun : (Write.serve Shelf.products (.update 0 [("file", some Shelf.madeUp)])).run ()
    Shelf.published Shelf.published = out at hok
  obtain ⟨result, t, v⟩ := out
  obtain ⟨hcolumn, hmissing⟩ := hok
  cases result with
  | error e => exact absurd hcolumn Bool.false_ne_true
  | ok done =>
    have hcolumn := beq_iff_eq.mp hcolumn
    obtain ⟨f, hf, hkey, -⟩ := h _ _ _ done.1 t v hrun Shelf.madeUp
      ⟨("file", "files/product".toList), by simp [Shelf.products], hcolumn, hbefore, by decide +kernel⟩
    exact absurd (beq_iff_eq.mpr hkey) (by simpa using List.any_eq_false.mp hmissing f hf)

end FastKit.Uploads
