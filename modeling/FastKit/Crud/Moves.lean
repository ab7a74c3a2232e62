import FastKit.Crud.Brands
import FastKit.Crud.Checks

/-! # Rows that move from brand to brand

An operator of no brand moves a row into another brand, or to all of them, and writes rows of any. What
a resource checks of a row as it is written keeps every key within what its brand reaches, but for what
a row that changes its parent is pointed at by and what is handed to an account that is shared.
-/

namespace FastKit.Crud
open Relational Transaction Transaction.Program

variable {π δ : Type} {V : Services π δ} {operator : Operator} {m n : Model} {s t u : Store δ}
  {r p row : Row δ} {k : Key Model Column} {data : Data π} {instance' : Option (Row δ)} {id : ℕ}
  {tenantId : Option ℕ}

/-- What the checks of an edit do not ask: that what points at a row which changes its parent is of the
brand it goes to, and that what was handed to an account which is shared came of no brand. -/
structure Spares (m : Model) (data : Data π) (row : Row δ) (s : Store δ) : Prop where
  pointed : m.hasTenant = false → destined m data (some row) s ≠ none →
    destined m data (some row) s ≠ owner brands s m row → ∀ i, ∀ k ∈ i.keys, k.target = m → ∀ r ∈ s i,
      r.refs k.column = some row.id → owner brands s i r = destined m data (some row) s
  handed : m = .user → row.refs .tenantId ≠ none → declared data (some row) .tenantId = none →
    ∀ i, i = .creditTransaction ∨ i = .userProduct → ∀ r ∈ s i, r.refs .userId = some row.id →
      ∀ id, r.refs .benefitGrantId = some id → ownerOf brands s .benefitGrant id = none

section Edited
variable (hm : m.managed = true) (hs : Fenced brands s) (hrow : row ∈ s m)
  (h : Passed V operator m data row s u t)

/-- The ways into an account that go where it goes. -/
def Carried (m : Model) (data : Data π) (row : Row δ) (i : Model) (r : Row δ) : Prop :=
  m = .user ∧ tenantOf data row ≠ row.refs .tenantId ∧ i = .socialIdentity ∧ r.refs .userId = some row.id

include h in
theorem Passed.others {i : Model} (hi : i ≠ .socialIdentity) : u i = s i := by
  have hmoved := h.identities
  unfold moveIdentities at hmoved
  split_ifs at hmoved
  · rw [← Option.some.inj hmoved, Function.update_of_ne hi]
  · rw [Option.some.inj hmoved]

theorem not_managed (hm : m.managed = true) : m ≠ .socialIdentity := by
  rintro rfl
  cases hm

include hm hrow h in
/-- The table an edit leaves. -/
theorem Passed.edit : accepted V m (edited V m data row row) u = true ∧
    t = Function.update u m ((u m).modify (fun r => r.id = row.id) (edited V m data row)
      (still_edited V m data row)) := by
  have hflushed := h.flushed
  have hget : (u m).get row.id = some row := by
    rw [h.others (not_managed hm)]
    exact Table.get_of_mem hrow
  unfold updateRow at hflushed
  rw [hget] at hflushed
  dsimp only at hflushed
  split_ifs at hflushed with haccepted
  exact ⟨haccepted, (Except.ok.inj hflushed).symm⟩

include hm hrow h in
/-- Where a row came from that stands after an edit. -/
theorem Passed.rows {i : Model} (hr : r ∈ t i) : (i = m ∧ r = edited V m data row row) ∨
    (∃ a ∈ s i, Carried m data row i a ∧ r = ofTenant (tenantOf data row) a ∧
      accepted V i r s = true) ∨
    (r ∈ s i ∧ ¬(i = m ∧ r.id = row.id) ∧ ¬Carried m data row i r) := by
  obtain ⟨-, rfl⟩ := h.edit hm hrow
  rcases mem_update.mp hr with ⟨rfl, hmem⟩ | ⟨hi, hmem⟩
  · obtain ⟨a, ha, rfl⟩ := (Table.mem_modify _).mp hmem
    rw [h.others (not_managed hm)] at ha
    split_ifs with hid
    · obtain rfl : a = row := Table.eq_of_id ha hrow (of_decide_eq_true hid)
      exact .inl ⟨rfl, rfl⟩
    · refine .inr (.inr ⟨ha, fun h => hid (decide_eq_true h.2), fun hcarried => ?_⟩)
      exact not_managed hm hcarried.2.2.1
  · have hmoved := h.identities
    unfold moveIdentities at hmoved
    split_ifs at hmoved with hmoves hall
    · rw [← Option.some.inj hmoved] at hmem
      rcases mem_update.mp hmem with ⟨rfl, hidentity⟩ | ⟨hother, hold⟩
      · obtain ⟨a, ha, rfl⟩ := (Table.mem_modify _).mp hidentity
        split_ifs with huser
        · refine .inr (.inl ⟨a, ha, ⟨hmoves.1, hmoves.2, rfl, of_decide_eq_true huser⟩, rfl, ?_⟩)
          have hone := List.all_eq_true.mp hall a ha
          simpa [of_decide_eq_true huser] using hone
        · exact .inr (.inr ⟨ha, fun h => hi h.1, fun hcarried => huser (decide_eq_true hcarried.2.2.2)⟩)
      · exact .inr (.inr ⟨hold, fun h => hi h.1, fun hcarried => hother hcarried.2.2.1⟩)
    · rw [← Option.some.inj hmoved] at hmem
      exact .inr (.inr ⟨hmem, fun h => hi h.1, fun hcarried => hmoves ⟨hcarried.1, hcarried.2.1⟩⟩)

include hm hrow h in
theorem Passed.kept {i : Model} (hp : p ∈ s i) : ∃ q ∈ t i, q.id = p.id := by
  obtain ⟨-, rfl⟩ := h.edit hm hrow
  have hthere : ∃ q ∈ u i, q.id = p.id := by
    have hmoved := h.identities
    unfold moveIdentities at hmoved
    split_ifs at hmoved
    · rw [← Option.some.inj hmoved]
      by_cases hi : i = .socialIdentity
      · subst hi
        refine ⟨_, mem_update.mpr (.inl ⟨rfl, Table.mem_modify_of_mem (still_ofTenant _) hp⟩), ?_⟩
        split_ifs <;> rfl
      · exact ⟨p, mem_update.mpr (.inr ⟨hi, hp⟩), rfl⟩
    · rw [← Option.some.inj hmoved]
      exact ⟨p, hp, rfl⟩
  obtain ⟨q, hq, hid⟩ := hthere
  by_cases hi : i = m
  · subst hi
    refine ⟨_, mem_update.mpr (.inl ⟨rfl, Table.mem_modify_of_mem (still_edited V i data row) hq⟩), ?_⟩
    split_ifs <;> exact hid
  · exact ⟨q, mem_update.mpr (.inr ⟨hi, hq⟩), hid⟩

include hm hs hrow h in
/-- Where the keys of the rows lead that stand after an edit. -/
theorem Passed.leads {i : Model} (hr : r ∈ t i) (hk : k ∈ i.keys) :
    (r.refs k.column = none → k.nullable = true) ∧
      (r.refs k.column ≠ none → ∃ p, follow s r k = some p) := by
  rcases h.rows hm hrow hr with ⟨rfl, rfl⟩ | ⟨a, ha, hcarried, rfl, haccepted⟩ | ⟨hold, -, -⟩
  · have hkeys := (accepted_iff.mp (h.edit hm hrow).1).1 k hk
    unfold follow at hkeys ⊢
    rwa [h.others (not_identity hk)] at hkeys
  · exact (accepted_iff.mp haccepted).1 k hk
  · exact hs.toSound.rows hold hk

/-- What becomes of no brand with a row that does: what belongs through it, and the ways into it. -/
def Turned (m : Model) (data : Data π) (row : Row δ) (s : Store δ) (i : Model) (id : ℕ) : Prop :=
  destined m data (some row) s = none ∧ owner brands s m row ≠ none ∧ ∃ r ∈ s i, r.id = id ∧
    ((∃ k, i.home = .through k ∧ k.target = m ∧ r.refs k.column = some row.id) ∨ Carried m data row i r)

open Classical in
/-- The brands of the rows after an edit. -/
noncomputable def reassigned (m : Model) (data : Data π) (row : Row δ) (s : Store δ) (i : Model) (id : ℕ) :
    Option ℕ :=
  if i = m ∧ id = row.id then destined m data (some row) s
  else if Turned m data row s i id then none
  else ownerOf brands s i id

theorem reassigned_row : reassigned m data row s m row.id = destined m data (some row) s :=
  if_pos ⟨rfl, rfl⟩

theorem reassigned_self (h : n = m) : reassigned m data row s n row.id = destined m data (some row) s := by
  rw [h, reassigned_row]

theorem ownerOf_self (hrow : row ∈ s m) (h : n = m) :
    ownerOf brands s n row.id = owner brands s m row := by
  rw [h, ownerOf_mem hrow]

theorem reassigned_turned {i : Model} (hne : ¬(i = m ∧ id = row.id)) (hturned : Turned m data row s i id) :
    reassigned m data row s i id = none := by
  rw [reassigned, if_neg hne, if_pos hturned]

theorem reassigned_other {i : Model} (hne : ¬(i = m ∧ id = row.id)) (hturned : ¬Turned m data row s i id) :
    reassigned m data row s i id = ownerOf brands s i id := by
  rw [reassigned, if_neg hne, if_neg hturned]

include hm in
/-- Nothing belongs through what turns. -/
theorem not_turned_home {i : Model} (hhome : i.home = .through k) : ¬Turned m data row s k.target id := by
  rintro ⟨-, -, r, -, -, ⟨l, hl, htarget, -⟩ | hcarried⟩
  · exact home_leaf hm hl htarget hhome rfl
  · exact not_identity (brands.through i k hhome).1 hcarried.2.2.1

/-- Nothing a row points at turns with it. -/
theorem not_turned_key (hk : k ∈ m.keys) : ¬Turned m data row s k.target id := by
  rintro ⟨-, -, r, -, -, ⟨l, hl, rfl, -⟩ | hcarried⟩
  · have hup := Model.ranked _ l (brands.through _ l hl).1
    have hdown := Model.ranked _ k hk
    omega
  · exact not_identity hk hcarried.2.2.1

/-- A row that stands as it was turns only where it belongs through the row that does. -/
theorem Turned.through {i : Model} (hturned : Turned m data row s i r.id) (hr : r ∈ s i)
    (hstands : ¬Carried m data row i r) :
    ∃ k, i.home = .through k ∧ k.target = m ∧ r.refs k.column = some row.id := by
  obtain ⟨-, -, a, ha, hid, hthrough⟩ := hturned
  obtain rfl : a = r := Table.eq_of_id ha hr hid
  exact hthrough.resolve_right hstands

include h in
/-- Where a row of a tenant moves into another brand, nothing points at it. -/
theorem Passed.unpointed (htenant : m.hasTenant = true) (hsome : destined m data (some row) s ≠ none)
    (hmoved : destined m data (some row) s ≠ owner brands s m row) {i : Model} (hk : k ∈ i.keys)
    (htarget : k.target = m) (hr : r ∈ s i) : r.refs k.column ≠ some row.id := by
  rw [destined_tenant htenant] at hsome hmoved
  rw [owner_of_hasTenant htenant] at hmoved
  exact h.referrers htenant hsome hmoved i k hk htarget r hr

theorem edited_settles (V : Services π δ) (m : Model) (data : Data π) (row : Row δ) (s : Store δ) :
    Settles (reassigned m data row s) m data (some row) s (edited V m data row row) where
  refs k hk := edited_declared hk
  mine := reassigned_row
  leads k hk id _ := by
    refine reassigned_other ?_ (not_turned_key hk)
    rintro ⟨hself, -⟩
    have hdown := Model.ranked _ k hk
    rw [hself] at hdown
    exact Nat.lt_irrefl _ hdown

include hm hs hrow h in
/-- A row that stands as it was belongs to whom the row it belongs through does. -/
theorem Passed.through {i : Model} (hr : r ∈ s i) (hne : ¬(i = m ∧ r.id = row.id))
    (hstands : ¬Carried m data row i r) (hhome : i.home = .through k) (hid : r.refs k.column = some id) :
    reassigned m data row s i r.id = reassigned m data row s k.target id := by
  have hk := (brands.through i k hhome).1
  have hwas := (assigns_ownerOf (O := brands) hs.toSound).through i r hr k hhome id hid
  by_cases hself : k.target = m ∧ id = row.id
  -- a child of the row goes where it goes only to no brand: it would have kept the row where it was
  · obtain ⟨htarget, rfl⟩ := hself
    have htenant := home_parent hm hhome htarget
    rw [reassigned_self htarget]
    by_cases hturned : Turned m data row s i r.id
    · rw [reassigned_turned hne hturned, hturned.1]
    · rw [reassigned_other hne hturned, hwas, ownerOf_self hrow htarget]
      by_contra hmoved
      cases hdestined : destined m data (some row) s with
      | none =>
        rw [hdestined] at hmoved
        exact hturned ⟨hdestined, hmoved, r, hr, rfl, .inl ⟨k, hhome, htarget, hid⟩⟩
      | some x =>
        exact h.unpointed htenant (by simp [hdestined]) (Ne.symm hmoved) hk htarget hr hid
  · have hturned : ¬Turned m data row s i r.id := by
      intro hturned
      obtain ⟨l, hl, htarget, href⟩ := hturned.through hr hstands
      obtain rfl := Home.through.inj (hl.symm.trans hhome)
      exact hself ⟨htarget, Option.some.inj (hid.symm.trans href)⟩
    rw [reassigned_other hne hturned, reassigned_other hself (not_turned_home hm hhome), hwas]

include hm hs h in
/-- A child of a row that is shared leads to what is shared, as it was asked or is spared. -/
theorem Passed.shared (hspares : Spares m data row s) {i : Model} (hr : r ∈ s i)
    (hstands : ¬Carried m data row i r) (hturned : Turned m data row s i r.id) (hk : k ∈ i.keys)
    (hid : r.refs k.column = some id) (hself : ¬(k.target = m ∧ id = row.id)) :
    ownerOf brands s k.target id = none := by
  obtain ⟨l, hl, hparent, href⟩ := hturned.through hr hstands
  have htenant := home_parent hm hl hparent
  have hnone : tenantOf data row = none := (destined_tenant htenant).symm.trans hturned.1
  have hsome : row.refs .tenantId ≠ none := owner_of_hasTenant htenant ▸ hturned.2.1
  have hother : k ≠ l := by
    rintro rfl
    exact hself ⟨hparent, Option.some.inj (hid.symm.trans href)⟩
  rcases child_keys hm hl hparent hk hother with hchild | hnobody | ⟨hi, huser, hcolumn, hgrant⟩
  · obtain ⟨p, hp, rfl, howner⟩ := ownerOf_follow (O := brands) hr hk hs.toSound hid
    rw [howner, owner_of_hasTenant (childKeys_tenant hchild)]
    exact h.children htenant hsome hnone _ hchild r hr href p hp
  · exact ownerOf_nobody hnobody
  · rw [hgrant]
    refine hspares.handed huser hsome hnone i hi r hr ?_ id (hcolumn ▸ hid)
    have huserKey : l.column = .userId := by
      rcases hi with rfl | rfl <;> cases hl <;> rfl
    rw [← huserKey, href]

include hm hs hrow h in
/-- A row that stands as it was leads nowhere but to what its brand reaches. -/
theorem Passed.fence (hspares : Spares m data row s) {i : Model} (hr : r ∈ s i)
    (hne : ¬(i = m ∧ r.id = row.id)) (hstands : ¬Carried m data row i r) (hk : k ∈ i.keys)
    (hid : r.refs k.column = some id) :
    reassigned m data row s k.target id = none ∨
      reassigned m data row s k.target id = reassigned m data row s i r.id := by
  have hwas := hs.ownerOf hr hk hid
  by_cases hself : k.target = m ∧ id = row.id
  · obtain ⟨htarget, rfl⟩ := hself
    rw [reassigned_self htarget]
    -- what points at the row that moved: nothing, where it carries its tenant, or what it was spared for
    refine or_iff_not_imp_left.mpr fun hsome => ?_
    rw [reassigned_other hne fun hturned => hsome hturned.1]
    by_cases hmoved : destined m data (some row) s = owner brands s m row
    · rw [ownerOf_self hrow htarget, ← hmoved] at hwas
      exact hwas.resolve_left hsome
    · cases htenant : m.hasTenant with
      | true => exact absurd hid (h.unpointed htenant hsome hmoved hk htarget hr)
      | false => rw [ownerOf_mem hr, hspares.pointed htenant hsome hmoved i k hk htarget r hr hid]
  · by_cases htarget : Turned m data row s k.target id
    · exact .inl (reassigned_turned hself htarget)
    · rw [reassigned_other hself htarget]
      by_cases hturned : Turned m data row s i r.id
      · exact .inl (h.shared hm hs hspares hr hstands hturned hk hid hself)
      · rw [reassigned_other hne hturned]
        exact hwas

include hm hrow h in
/-- A way into an account that goes where it goes. -/
theorem Passed.carried {i : Model} (hr : r ∈ s i) (hcarried : Carried m data row i r) :
    tenantOf data row = none ∧ reassigned m data row s i r.id = none := by
  obtain ⟨rfl, hmoved, rfl, huser⟩ := hcarried
  have hnone : tenantOf data row = none := by
    by_contra hsome
    exact h.referrers rfl hsome hmoved .socialIdentity (owning .userId .user) (by decide) rfl r hr huser
  refine ⟨hnone, reassigned_turned (fun hself => Model.noConfusion hself.1) ?_⟩
  refine ⟨(destined_tenant rfl).trans hnone, ?_, r, hr, rfl, .inr ⟨rfl, hmoved, rfl, huser⟩⟩
  rw [owner_of_hasTenant rfl]
  exact fun h => hmoved (hnone.trans h.symm)

include hm hs hrow h in
theorem Passed.sound : Sound schema t :=
  .written (s := s) (fun _ _ hp => h.kept hm hrow hp) fun _ _ hr _ hk => h.leads hm hs hrow hr hk

include hm hs hrow h in
theorem Passed.assigns : Assigns brands t (reassigned m data row s) := by
  have hnew := edited_settles V m data row s
  have hold := assigns_ownerOf (O := brands) hs.toSound
  refine ⟨fun i r hr column hhome => ?_, fun i r hr k hhome id hid => ?_, fun i r hr hhome => ?_⟩ <;>
    rcases h.rows hm hrow hr with ⟨rfl, rfl⟩ | ⟨a, ha, hcarried, rfl, -⟩ | ⟨hwas, hne, hstands⟩
  · exact hnew.own hhome
  · obtain ⟨hnone, hturned⟩ := h.carried hm hrow ha hcarried
    obtain ⟨rfl, -⟩ := own_tenant hhome
    refine hturned.trans ?_
    simp [ofTenant, hnone]
  · refine (reassigned_other hne fun hturned => ?_).trans (hold.own i r hwas column hhome)
    obtain ⟨k, hk, -⟩ := hturned.through hwas hstands
    cases hhome.symm.trans hk
  · exact hnew.through hhome hid
  · obtain rfl := hcarried.2.2.1
    cases hhome
  · exact h.through hm hs hrow hwas hne hstands hhome hid
  · exact hnew.nobody hhome
  · obtain rfl := hcarried.2.2.1
    cases hhome
  · refine (reassigned_other hne fun hturned => ?_).trans (hold.nobody i r hwas hhome)
    obtain ⟨k, hk, -⟩ := hturned.through hwas hstands
    cases hhome.symm.trans hk

include hm hs hrow h in
/-- An edit that is spared leaves no key that leads from one brand to another. -/
theorem Passed.fenced (hspares : Spares m data row s) : Fenced brands t := by
  refine (h.assigns hm hs hrow).fenced (h.sound hm hs hrow) fun i r hr k hk id hid => ?_
  rcases h.rows hm hrow hr with ⟨rfl, rfl⟩ | ⟨a, ha, hcarried, rfl, -⟩ | ⟨hwas, hne, hstands⟩
  · exact (edited_settles V _ data row s).fence hm h.valid hk hid
  · obtain ⟨hnone, -⟩ := h.carried hm hrow ha hcarried
    obtain ⟨rfl, -, rfl, huser⟩ := hcarried
    rcases List.mem_cons.mp hk with rfl | hk
    · exact absurd (hnone.symm.trans hid) (by simp)
    · obtain rfl := List.mem_singleton.mp hk
      obtain rfl : row.id = id := Option.some.inj (huser.symm.trans hid)
      exact .inl (reassigned_row.trans ((destined_tenant rfl).trans hnone))
  · exact h.fence hm hs hrow hspares hwas hne hstands hk hid

end Edited

section Answered
variable {c : ℕ}

/-- What a payload has of a key was asked of it, or is what the row had. -/
theorem asked_or_had (h : declared data instance' k.column = some id) :
    asked data instance' k = some id ∨ ∃ row ∈ instance', row.refs k.column = some id := by
  unfold declared at h
  cases hdata : data.refs k.column with
  | none =>
    rw [hdata] at h
    exact .inr (Option.bind_eq_some_iff.mp h)
  | some value =>
    rw [hdata, Option.getD_some] at h
    by_cases hhad : instance'.any (fun r => r.refs k.column = some id) = true
    · obtain ⟨row, hrow, href⟩ := (Option.any_eq_true _ _).mp hhad
      exact .inr ⟨row, hrow, of_decide_eq_true href⟩
    · refine .inl ?_
      rw [asked, hdata, h, Option.join_some, Option.filter_some_pos]
      simp [Bool.eq_false_iff.mpr hhad]

/-- What an operator of a brand writes is destined to the brand. -/
theorem destined_brand (hc : operator.tenantId = some c) (hm : m.managed = true)
    (hsystem : m.systemWide = false) (hs : Fenced brands s)
    (hhad : ∀ row ∈ instance', row ∈ s m ∧ owner brands s m row = some c)
    (hasked : ∀ k ∈ m.keys, ∀ id, asked data instance' k = some id →
      ∃ p, find operator k.target id (parental m k) s = some p)
    (hgiven : ∀ k ∈ m.keys, k.nullable = false → declared data instance' k.column ≠ none)
    (hstamped : m.hasTenant = true → data.refs .tenantId = some (some c)) :
    destined m data instance' s = some c := by
  cases hhome : m.home with
  | own column =>
    obtain ⟨rfl, htenant⟩ := own_tenant hhome
    rw [destined_tenant htenant, declared, hstamped htenant, Option.getD_some]
  | nobody => exact absurd hhome (somebody hsystem)
  | through k =>
    obtain ⟨hk, -, hnull⟩ := brands.through m k hhome
    obtain ⟨id, hid⟩ := Option.ne_none_iff_exists'.mp (hgiven k hk hnull)
    rw [destined_parent hhome hid]
    rcases asked_or_had hid with hnew | ⟨row, hrow, href⟩
    · obtain ⟨p, hfind⟩ := hasked k hk id hnew
      have hparental := parental_of_home hm hhome
      rw [hparental] at hfind
      obtain ⟨hp, rfl, howner⟩ := find_writing hs.toSound hc (managed_target hm hk)
        (parental_not_systemWide hm hk hparental) hfind
      rw [ownerOf_mem hp, howner]
    · obtain ⟨hmem, howner⟩ := hhad row hrow
      rw [← (assigns_ownerOf hs.toSound).through m row hmem k hhome id href, ownerOf_mem hmem, howner]

/-- A row is answered to whom wrote it. -/
theorem find_own (hm : m.managed = true) (hs : Sound schema s) (hr : r ∈ s m)
    (h : ∀ c, operator.tenantId = some c → m.systemWide = false → owner brands s m r = some c) :
    find operator m r.id false s = some r := by
  have hget : (s m).get r.id = some r := Table.get_of_mem hr
  rw [find, hget, Option.filter_some_pos]
  cases hc : operator.tenantId with
  | none => simp [confinement, hc]
  | some c =>
    cases hsystem : m.systemWide with
    | true => simp [confinement, hsystem]
    | false =>
      have hserved := (served hm).resolve_left (by simp [hsystem])
      rw [confinement_eq hs hr hc hsystem hserved, h c hc hsystem, wanted]
      split_ifs <;> simp [hc, reachesTenant, belongsToTenant]

theorem get_own (hm : m.managed = true) (hs : Sound schema s) (hr : r ∈ s m)
    (h : ∀ c, operator.tenantId = some c → m.systemWide = false → owner brands s m r = some c) :
    (get operator m r.id false).run () s s = (.ok (r, ()), s, s) := by
  simp only [get, run_bind, run_query, onward_ok, find_own hm hs hr h, run_require_some]

/-- What a creation answers, and what it leaves. -/
theorem create_leaves (operator : Operator) (data : Data π) (hm : m.managed = true) (hs : Fenced brands s) :
    (∃ e v, (create V operator m data).run () s s = (.error e, s, v)) ∨
      ∃ row t, (create V operator m data).run () s s = (.ok (row, ()), t, t) ∧ Fenced brands t := by
  refine (create_alone (V := V)).imp_right ?_
  rintro ⟨row, t, hasked, hvalid, hinsert, hrun⟩
  obtain ⟨ht, hrow, howner⟩ := insertRow_fenced hm hs hvalid hinsert
  refine ⟨row, t, hrun.trans (get_own hm ht.toSound hrow fun c hc hsystem => ?_), ht⟩
  refine howner.trans (destined_brand hc hm hsystem hs (by simp) hasked (fun k hk hnull => ?_)
    fun htenant => stamped_tenant hc htenant)
  have hset := ht.toSound.given m row hrow k hk hnull
  obtain ⟨table, hadded, -⟩ := insertRow_eq_some hinsert
  rwa [(Table.insert_eq_some hadded).1, made_declared hk] at hset

/-- What an edit answers, and what it leaves. -/
theorem update_leaves (operator : Operator) (id : ℕ) (data : Data π) (hm : m.managed = true) (hs : Fenced brands s) :
    (∃ e v, (update V operator m id data).run () s s = (.error e, s, v)) ∨
      ∃ row t, (update V operator m id data).run () s s = (.ok (row, ()), t, t) ∧
        ((∀ row, find operator m id true s = some row → Spares m (stamped V operator m data) row s) →
          Fenced brands t) := by
  refine (update_alone (V := V)).imp_right ?_
  rintro ⟨row, u, t, hfind, h, hrun⟩
  obtain ⟨hrow, rfl⟩ := Table.get_eq_some_iff.mp (Option.filter_eq_some_iff.mp hfind).1
  have hedited : edited V m (stamped V operator m data) row row ∈ t m := by
    obtain ⟨-, ht⟩ := h.edit hm hrow
    have hmem := Table.mem_modify_of_mem (p := fun r => r.id = row.id)
      (still_edited V m (stamped V operator m data) row) (h.others (not_managed hm) ▸ hrow)
    rw [if_pos (decide_eq_true rfl)] at hmem
    exact ht ▸ mem_update.mpr (.inl ⟨rfl, hmem⟩)
  have hsound := h.sound hm hs hrow
  refine ⟨edited V m (stamped V operator m data) row row, t,
    hrun.trans (get_own hm hsound hedited fun c hc hsystem => ?_), fun hspares =>
      h.fenced hm hs hrow (hspares row hfind)⟩
  refine ((h.assigns hm hs hrow).owner hsound hedited).trans (reassigned_row.trans ?_)
  refine destined_brand hc hm hsystem hs ?_ h.asked (fun k hk hnull => ?_) fun htenant =>
    stamped_tenant hc htenant
  · rintro a ha
    obtain rfl := Option.some.inj ha
    exact ⟨hrow, (find_writing hs.toSound hc hm hsystem hfind).2.2⟩
  · have hkey := hsound.given m _ hedited k hk hnull
    rwa [edited_declared hk] at hkey

end Answered

/-- Whether an edit is one whose checks ask what it takes. -/
def Write.Spared (V : Services π δ) (operator : Operator) : Write π → Store δ → Prop
  | create _ _, _ => True
  | update m id data, s => ∀ row, find operator m id true s = some row →
      Spares m (stamped V operator m data) row s

/-- The stores that calls of operators lead to, one after another. -/
inductive Wrote (V : Services π δ) (s : Store δ) : Store δ → Prop
  | start : Wrote V s s
  | write {t : Store δ} {w : Write π} (operator : Operator) (hwrote : Wrote V s t)
      (hm : w.model.managed = true) (hspared : w.Spared V operator t) : Wrote V s (after V operator w t)

theorem after_fenced {w : Write π} (hm : w.model.managed = true) (hs : Fenced brands s)
    (hspared : w.Spared V operator s) : Fenced brands (after V operator w s) := by
  unfold after
  cases w with
  | create m data =>
    rcases create_leaves (V := V) (m := m) operator data hm hs with
      ⟨e, v, hrun⟩ | ⟨row, t, hrun, ht⟩ <;> rw [Write.serve, hrun]
    · exact hs
    · exact ht
  | update m id data =>
    rcases update_leaves (V := V) (m := m) operator id data hm hs with
      ⟨e, v, hrun⟩ | ⟨row, t, hrun, ht⟩ <;> rw [Write.serve, hrun]
    · exact hs
    · exact ht hspared

/-- A call that is refused leaves the store as it was. -/
theorem after_refused {w : Write π} {e : Fault} (hm : w.model.managed = true) (hs : Fenced brands s)
    (h : ((w.serve V operator).run () s s).1 = .error e) : after V operator w s = s := by
  unfold after
  cases w with
  | create m data =>
    rcases create_leaves (V := V) (m := m) operator data hm hs with
      ⟨e, v, hrun⟩ | ⟨row, t, hrun, -⟩ <;> rw [Write.serve, hrun] at h ⊢
    cases h
  | update m id data =>
    rcases update_leaves (V := V) (m := m) operator id data hm hs with
      ⟨e, v, hrun⟩ | ⟨row, t, hrun, -⟩ <;> rw [Write.serve, hrun] at h ⊢
    cases h

/-- No write points across brands, in any run of creations and edits by any operators whose edits are
ones whose checks ask what it takes: every key of every row leads to what its brand reaches, and a call
that is refused changes nothing. -/
theorem writes_stay_apart (hs : Fenced brands s) (h : Wrote V s t) : Fenced brands t ∧
    ∀ (operator : Operator) (w : Write π) (e : Fault), w.model.managed = true →
      ((w.serve V operator).run () t t).1 = .error e → after V operator w t = t := by
  have ht : Fenced brands t := by
    induction h with
    | start => exact hs
    | write operator _ hm hspared ih => exact after_fenced hm ih hspared
  exact ⟨ht, fun operator w e hm hrefused => after_refused hm ht hrefused⟩

namespace Mall

/-- An operator of no brand. -/
def anywhere : Operator := ⟨1, none, false⟩

/-- The currency of the second brand is shared with all. -/
def sharing : Write Unit := .update .currency 0 ⟨fun column => if column = .tenantId then some none else none, ()⟩

/-- Two brands with an entitlement each, and a benefit of the first one that a subscription of it holds
and credited an account of it for. -/
def sold : Store Unit
  | .tenant => table [[], []]
  | .user => table [[(.tenantId, 0)], []]
  | .currency => table [[]]
  | .plan => table [[(.tenantId, 0)]]
  | .entitlement => table [[(.tenantId, 0)], [(.tenantId, 1)]]
  | .benefit => table [[(.entitlementId, 0)]]
  | .subscription => table [[(.tenantId, 0), (.userId, 0), (.planId, 0)]]
  | .userEntitlement => table [[(.subscriptionId, 0), (.entitlementId, 0)]]
  | .subscriptionBenefit => table [[(.subscriptionId, 0), (.benefitId, 0), (.userEntitlementId, 0)]]
  | .benefitGrant => table [[(.subscriptionBenefitId, 0)]]
  | .creditTransaction => table [[(.userId, 0), (.currencyId, 0), (.benefitGrantId, 0)]]
  | _ => .empty

/-- The benefit goes to the entitlement of the second brand. -/
def moving : Write Unit :=
  .update .benefit 0 ⟨fun column => if column = .entitlementId then some (some 1) else none, ()⟩

/-- The account that was credited is shared with all. -/
def freeing : Write Unit := .update .user 0 ⟨fun column => if column = .tenantId then some none else none, ()⟩

end Mall

/-- The currency of the second brand is shared, and no key leads from one brand to another. -/
theorem writes_stay_apart_shared : ∃ t, Wrote Mall.services Mall.store t ∧
    (∃ r ∈ t .currency, r.refs .tenantId = none) ∧ Fenced brands t := by
  have hspared : Mall.sharing.Spared Mall.services Mall.anywhere Mall.store := by
    intro row _
    exact ⟨fun h => Bool.noConfusion h, fun h => Model.noConfusion h⟩
  have hwrote : Wrote Mall.services Mall.store (after Mall.services Mall.anywhere Mall.sharing Mall.store) :=
    .write Mall.anywhere .start rfl hspared
  exact ⟨_, hwrote, by decide +kernel, (writes_stay_apart Mall.fenced hwrote).1⟩

/-- A benefit that a subscription of a brand holds is moved to another brand, and an account that was
credited for one is shared. -/
theorem writes_cross_brands : Fenced brands Mall.sold ∧ ∀ w ∈ [Mall.moving, Mall.freeing],
    ((w.serve Mall.services Mall.anywhere).run () Mall.sold Mall.sold).1.isOk = true ∧
      ¬Fenced brands (after Mall.services Mall.anywhere w Mall.sold) := by
  decide +kernel

end FastKit.Crud
