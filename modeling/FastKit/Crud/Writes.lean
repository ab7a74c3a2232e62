import FastKit.Crud.Deletions

/-! # What an operator of a brand writes

Each call of an operator of a brand, statement after statement and whatever the operators of the
brands do in between: what it writes belongs to its brand and leads nowhere else, and every row that
belongs to another brand or to none stays as it is.
-/

namespace FastKit.Crud
open Relational Transaction Transaction.Program

variable {π δ : Type} {V : Services π δ} {operator : Operator} {m n : Model} {s t b v : Store δ}
  {r p row : Row δ} {c id : ℕ} {writing strict : Bool} {reach : Reach} {k : Key Model Column}
  {data : Data π} {g : Unit} {μ : Unit}

/-- An operator of a brand stays within it, and relies on the others to stay within theirs. -/
def confined (c : ℕ) : Contract Unit Unit (Store δ) where
  rely := fun _ s t => Fenced brands s → Fenced brands t ∧ Lasting brands s t
  guar := fun _ s _ t => Fenced brands s → Stays c s t
  shows := fun _ _ => True
  prompt := True

/-- Where a program that leaves nothing unpublished ends, from `s`. -/
def Later (s : Store δ) (b v : Store δ) : Prop := b = v ∧ Fenced brands b ∧ Lasting brands s b

theorem Later.refl (hs : Fenced brands s) : Later s s s := ⟨rfl, hs, .refl s⟩

theorem meets_pass {post : Unit → Except Fault (Unit × Unit) → Store δ → Store δ → Prop}
    (hs : Fenced brands s)
    (h : ∀ t, Fenced brands t → Lasting brands s t → post () (.ok ((), ())) t t) :
    (pass : Db δ Unit).Meets (confined c) post g μ s s := by
  simp only [pass, meets_yield, id_eq]
  exact ⟨(), fun _ => .refl hs, trivial, fun t ht => h t (ht hs).1 (ht hs).2⟩

theorem meets_commit {post : Unit → Except Fault (Unit × Unit) → Store δ → Store δ → Prop}
    (hv : Stays c s v)
    (h : ∀ t, Fenced brands t → Lasting brands v t → post () (.ok ((), ())) t t) :
    (publish : Db δ Unit).Meets (confined c) post g μ s v := by
  simp only [meets_publish]
  exact ⟨(), fun _ => hv, trivial, fun t ht => h t (ht hv.fenced).1 (ht hv.fenced).2⟩

/-- Whether a key is the one a row belongs to its parent by. -/
def parental (m : Model) (k : Key Model Column) : Bool := (m.reachesThrough.map Reach.column) = some k.column

/-- A parent of a child that is managed is no row of the system. -/
theorem parental_not_systemWide (hm : m.managed = true) (hk : k ∈ m.keys) (hp : parental m k = true) :
    k.target.systemWide = false := by
  cases m <;> simp [Model.managed] at hm <;> revert hk hp <;> decide +revert

/-- What a row may be pointed at is managed too. -/
theorem managed_target (hm : m.managed = true) (hk : k ∈ m.keys) : k.target.managed = true := by
  cases m <;> simp [Model.managed] at hm <;> revert hk <;> decide +revert

/-- What is read of a row that is to be written. -/
theorem get_meets {post : Unit → Except Fault (Row δ × Unit) → Store δ → Store δ → Prop}
    (hnone : post g (.error .notFound) b v)
    (hsome : ∀ p, find operator m id writing v = some p → post g (.ok (p, μ)) b v) :
    (get operator m id writing).Meets (confined c) post g μ b v := by
  simp only [get, meets_bind, meets_query, ending_ok]
  cases h : find operator m id writing v with
  | none => exact hnone
  | some p => exact hsome p h

/-- A key that is asked leads to a row of the brand, or to one of none unless it leads to the parent. -/
theorem ensureReferences_meets {instance' : Option (Row δ)} {keys : List (Key Model Column)}
    (hc : operator.tenantId = some c) (hm : m.managed = true) (hkeys : ∀ k ∈ keys, k ∈ m.keys)
    (hs : Fenced brands s) :
    (ensureReferencesAreReachable operator m data instance' keys).Meets (confined c)
      (ending (fun _ _ b v => Later s b v ∧ ∀ k ∈ keys, ∀ id, asked data instance' k = some id →
        Fits c (parental m k) b k.target id) fun _ _ _ _ => True) g μ s s := by
  induction keys generalizing s g μ with
  | nil => exact ⟨.refl hs, fun _ hk => absurd hk List.not_mem_nil⟩
  | cons k keys ih =>
    have hk : k ∈ m.keys := hkeys k List.mem_cons_self
    have hrest : ∀ k ∈ keys, k ∈ m.keys := fun k' h => hkeys k' (List.mem_cons_of_mem _ h)
    cases hasked : asked data instance' k with
    | none =>
      simp only [ensureReferencesAreReachable, hasked]
      refine (ih hrest hs).mono ?_
      rintro _ (e | ⟨_, _⟩) b v h
      · trivial
      · refine ⟨h.1, fun k' hk' id hid => ?_⟩
        rcases List.mem_cons.mp hk' with rfl | hk'
        · rw [hasked] at hid
          cases hid
        · exact h.2 k' hk' id hid
    | some id =>
      simp only [ensureReferencesAreReachable, hasked, meets_bind, meets_query, ending_ok]
      cases hfind : find operator k.target id
          (decide (Option.map Reach.column m.reachesThrough = some k.column)) s with
      | none => trivial
      | some p =>
        simp only [meets_bind]
        refine meets_pass hs fun t ht hst => ?_
        have hfits : Fits c (parental m k) s k.target id := by
          obtain ⟨hp, rfl, howner⟩ := find_eq_some hs.toSound hc (managed_target hm hk) hfind
          refine fits_of_mem hp (howner.imp_right fun h => ⟨Bool.eq_false_iff.mpr fun hparent => ?_, h.2⟩)
          have hsystem := h.1 hparent
          rw [parental_not_systemWide hm hk hparent] at hsystem
          cases hsystem
        refine (ih hrest ht).mono ?_
        rintro _ (e | ⟨_, _⟩) b v h
        · trivial
        · obtain ⟨⟨rfl, hb, htb⟩, hall⟩ := h
          refine ⟨⟨rfl, hb, hst.trans htb⟩, fun k' hk' id' hid => ?_⟩
          rcases List.mem_cons.mp hk' with rfl | hk'
          · rw [hasked] at hid
            obtain rfl := Option.some.inj hid
            exact hfits.lasting (hst.trans htb)
          · exact hall k' hk' id' hid

theorem accepted_iff : accepted V m r s = true ↔ (∀ k ∈ m.keys,
    (r.refs k.column = none → k.nullable = true) ∧
      (r.refs k.column ≠ none → ∃ p, follow s r k = some p)) ∧ V.taken m r s = false := by
  simp only [accepted, Bool.and_eq_true, List.all_eq_true, Bool.not_eq_true']
  refine and_congr_left fun _ => forall₂_congr fun k _ => ?_
  cases href : r.refs k.column with
  | none => simp
  | some id => simp [Option.isSome_iff_exists]

/-- A key that may lead where it does, where it leads there still. -/
theorem Fits.leads (h : Fits c strict s k.target id) (href : r.refs k.column = some id)
    (hp : follow s r k = some p) :
    Relational.owner brands s k.target p = some c ∨
      strict = false ∧ Relational.owner brands s k.target p = none := by
  obtain ⟨hmem, hid⟩ := follow_eq_some.mp hp
  exact h.owner p hmem (Option.some.inj (hid.symm.trans href))

/-- A row that is added is one its keys and the indexes let in. -/
theorem insertRow_eq_some {make : ℕ → Row δ} (h : insertRow V m make s = some (row, t)) :
    ∃ table, (s m).insert make = some (row, table) ∧ t = Function.update s m table ∧
      ∀ k ∈ m.keys, (row.refs k.column = none → k.nullable = true) ∧
        (row.refs k.column ≠ none → ∃ p, follow s row k = some p) := by
  unfold insertRow at h
  split_ifs at h with haccepted
  obtain ⟨⟨row', table⟩, hinsert, heq⟩ := Option.map_eq_some_iff.mp h
  obtain ⟨rfl, rfl⟩ := Prod.mk.inj heq
  obtain ⟨hkeys, -⟩ := accepted_iff.mp haccepted
  rw [← (Table.insert_eq_some hinsert).1] at hkeys
  exact ⟨table, hinsert, rfl, hkeys⟩

/-- A row that is added to the brand, as its keys were asked. -/
theorem insertRow_stays {make : ℕ → Row δ} (strict : Key Model Column → Bool) (hs : Fenced brands s)
    (h : insertRow V m make s = some (row, t))
    (hown : ∀ i column, m.home = .own column → (make i).refs column = some c)
    (hstrict : ∀ k, m.home = .through k → strict k = true) (hsomebody : m.home ≠ .nobody)
    (hleads : ∀ i, ∀ k ∈ m.keys, ∀ p, follow s (make i) k = some p →
      owner brands s k.target p = some c ∨ strict k = false ∧ owner brands s k.target p = none) :
    Stays c s t := by
  obtain ⟨table, hinsert, rfl, hkeys⟩ := insertRow_eq_some h
  obtain ⟨hrow, hrowid, -⟩ := Table.insert_eq_some hinsert
  refine stays_of_edits hs (edits_insert hs.toSound hinsert ⟨fun a ha haid => ?_, fun _ => ?_,
    fun column hhome => ?_, fun k hhome => ?_, hsomebody, fun k hk hset => ?_⟩ fun k hk hnull hnone => ?_)
  · exact absurd (haid.trans hrowid) (Nat.ne_of_lt (s m |>.fresh a ha))
  · exact Nat.le_of_eq hrowid.symm
  · rw [hrow]
    exact hown _ column hhome
  · obtain ⟨hk, -, hgiven⟩ := brands.through m k hhome
    have hset : row.refs k.column ≠ none := fun hnone => by
      rw [(hkeys k hk).1 hnone] at hgiven
      cases hgiven
    obtain ⟨p, hp⟩ := (hkeys k hk).2 hset
    refine ⟨p, hp, (hleads _ k hk p (hrow ▸ hp)).resolve_right fun hnone => ?_⟩
    rw [hstrict k hhome] at hnone
    exact absurd hnone.1 Bool.noConfusion
  · obtain ⟨p, hp⟩ := (hkeys k hk).2 hset
    exact ⟨p, hp, (hleads _ k hk p (hrow ▸ hp)).symm.imp_left And.right⟩
  · rw [(hkeys k hk).1 hnone] at hnull
    cases hnull

theorem own_tenant {column : Column} (h : m.home = .own column) :
    column = .tenantId ∧ m.hasTenant = true := by
  cases m <;> cases h <;> exact ⟨rfl, rfl⟩

/-- The parent of a row that is managed is asked as a parent. -/
theorem parental_of_home (hm : m.managed = true) (h : m.home = .through k) : parental m k = true := by
  cases m <;> cases h <;> first | rfl | cases hm

theorem somebody (h : m.systemWide = false) : m.home ≠ .nobody := by
  intro hhome
  have hsystem : m.systemWide = true := by cases m <;> first | rfl | cases hhome
  rw [h] at hsystem
  cases hsystem

theorem tenant_mem (h : m.hasTenant = true) : Column.tenantId ∈ m.keys.map Key.column := by
  obtain ⟨k, hk, htenant⟩ := List.any_eq_true.mp h
  exact List.mem_map.mpr ⟨k, hk, of_decide_eq_true htenant⟩

/-- A payload of an operator of a brand names the brand. -/
theorem stamped_tenant (hc : operator.tenantId = some c) (h : m.hasTenant = true) :
    (stamped V operator m data).refs .tenantId = some (some c) := by
  simp [stamped, hc, h]

theorem made_refs (hk : k ∈ m.keys) : (made V m data id).refs k.column = (data.refs k.column).join :=
  if_pos (List.mem_map.mpr ⟨k, hk, rfl⟩)

/-- An edit changes what its payload names, and nothing of what the row holds already. -/
theorem edited_refs (hk : k ∈ m.keys) : (edited V m data row r).refs k.column = r.refs k.column ∨
    (data.refs k.column).join = (edited V m data row r).refs k.column ∧
      (edited V m data row r).refs k.column ≠ row.refs k.column := by
  have hcolumn : k.column ∈ m.keys.map Key.column := List.mem_map.mpr ⟨k, hk, rfl⟩
  simp only [edited, if_pos hcolumn]
  cases hdata : data.refs k.column with
  | none => exact .inl rfl
  | some value =>
    dsimp only
    split_ifs with hsame
    · exact .inl rfl
    · exact .inr ⟨rfl, hsame⟩

theorem asked_of_edited (hnamed : (data.refs k.column).join = some id) (hnew : some id ≠ row.refs k.column) :
    asked data (some row) k = some id := by
  rw [asked, hnamed, Option.filter_some_pos]
  simpa using Ne.symm hnew

/-- A row of the brand that is edited, as its keys were asked. -/
theorem updateRow_stays (hm : m.managed = true) (hs : Fenced brands s)
    (h : updateRow V m data row s = .ok t) (hrow : Fits c true s m row.id)
    (hown : m.hasTenant = true → data.refs .tenantId = some (some c))
    (hfits : ∀ k ∈ m.keys, ∀ id, asked data (some row) k = some id →
      Fits c (parental m k) s k.target id) : Stays c s t := by
  unfold updateRow at h
  cases hget : (s m).get row.id with
  | none =>
    rw [hget] at h
    cases h
  | some now =>
    rw [hget] at h
    dsimp only at h
    split_ifs at h with haccepted
    obtain rfl := Except.ok.inj h
    obtain ⟨hnow, hid⟩ := Table.get_eq_some_iff.mp hget
    obtain ⟨hkeys, -⟩ := accepted_iff.mp haccepted
    have howner : owner brands s m now = some c :=
      (hrow.owner now hnow hid).resolve_right fun hnone => absurd hnone.1 Bool.noConfusion
    -- a key of the row leads where it led, or where it was asked to lead
    have hleads : ∀ k ∈ m.keys, ∀ p, follow s (edited V m data row now) k = some p →
        follow s now k = some p ∨ owner brands s k.target p = some c ∨
          parental m k = false ∧ owner brands s k.target p = none := by
      intro k hk p hp
      obtain ⟨-, href⟩ := follow_eq_some.mp hp
      have hled : (edited V m data row now).refs k.column = now.refs k.column ∨ _ := edited_refs hk
      rcases hled with hsame | ⟨hnamed, hnew⟩
      · rw [follow, ← hsame]
        exact .inl hp
      · rw [href] at hnamed hnew
        exact .inr ((hfits k hk p.id (asked_of_edited hnamed hnew)).leads href hp)
    have hwritten : Written brands c s m (edited V m data row now) := by
      refine ⟨fun a ha haid => ?_, fun hnew => absurd rfl (hnew now hnow), fun column hhome => ?_,
        fun k hhome => ?_, fun hhome => ?_, fun k hk hset => ?_⟩
      · obtain rfl : a = now := Table.eq_of_id ha hnow haid
        exact howner
      · obtain ⟨rfl, htenant⟩ := own_tenant hhome
        rw [owner_own hhome] at howner
        simp only [edited, if_pos (tenant_mem htenant), hown htenant]
        split_ifs
        · exact howner
        · rfl
      · obtain ⟨hk, -, hgiven⟩ := brands.through m k hhome
        obtain ⟨p, hp⟩ := (hkeys k hk).2 fun hnone => by
          rw [(hkeys k hk).1 hnone] at hgiven
          cases hgiven
        refine ⟨p, hp, ?_⟩
        rcases hleads k hk p hp with hsame | hmay
        · rw [owner_through hhome, hsame] at howner
          exact howner
        · refine hmay.resolve_right fun hnone => ?_
          rw [parental_of_home hm hhome] at hnone
          exact absurd hnone.1 Bool.noConfusion
      · rw [owner_nobody hhome] at howner
        cases howner
      · obtain ⟨p, hp⟩ := (hkeys k hk).2 hset
        refine ⟨p, hp, ?_⟩
        rcases hleads k hk p hp with hsame | hmay
        · exact howner ▸ hs.fence m now hnow k hk p hsame
        · exact hmay.symm.imp_left And.right
    refine stays_of_edits hs (edits_modify (still_edited V m data row) hs.toSound (fun a ha hwrite => ?_)
      fun a ha hwrite k hk hnull => ?_)
    · obtain rfl : a = now := Table.eq_of_id ha hnow ((of_decide_eq_true hwrite).trans hid.symm)
      exact ⟨howner, hwritten⟩
    · obtain rfl : a = now := Table.eq_of_id ha hnow ((of_decide_eq_true hwrite).trans hid.symm)
      intro hnone
      rw [(hkeys k hk).1 hnone] at hnull
      cases hnull

/-- The account of an operator of a brand, which its trail points at. -/
abbrev Account (c : ℕ) (operator : Operator) (s : Store δ) : Prop := Fits c false s .user operator.id

theorem written_meets (hc : operator.tenantId = some c) (hs : Fenced brands s)
    (ha : Account c operator s) :
    (written V operator).Meets (confined c) (ending (fun _ _ b v => Later s b v) fun _ _ _ _ => True)
      g μ s s := by
  simp only [written, meets_bind, meets_query, ending_ok]
  cases hinsert : insertRow V .systemLog (trail V operator) s with
  | none => trivial
  | some q =>
    simp only [meets_bind, meets_execute, ending_ok]
    have hstays : Stays c s q.2 := by
      refine insertRow_stays (fun _ => false) hs hinsert (fun x column hhome => ?_)
        (fun k hhome => ?_) (somebody rfl) fun x k hk p hp => ?_
      · rw [(own_tenant hhome).1]
        exact hc
      · cases hhome
      · rcases List.mem_cons.mp hk with rfl | hk
        · exact .inr ⟨rfl, owner_nobody rfl⟩
        · obtain rfl := List.mem_singleton.mp hk
          exact ha.leads rfl hp
    exact meets_commit hstays fun t ht hst => ⟨rfl, ht, hstays.lasting.trans hst⟩

theorem create_meets (hc : operator.tenantId = some c) (hm : m.managed = true)
    (hsystem : m.systemWide = false) (hs : Fenced brands s) :
    (create V operator m data).Meets (confined c) (ending (fun _ _ b v => Later s b v) fun _ _ _ _ => True)
      g μ s s := by
  unfold create
  refine (ensureReferences_meets hc hm (fun _ h => h) hs).bind ?_ (fun _ _ _ _ _ => trivial)
  rintro g - - b v ⟨⟨rfl, hb, hsb⟩, hfits⟩
  simp only [meets_bind, meets_query, ending_ok]
  cases validate V m (stamped V operator m data) none b with
  | some e => trivial
  | none =>
    simp only [meets_bind]
    refine meets_pass hb fun t ht hbt => ?_
    simp only [ending_ok, meets_bind, meets_query]
    cases hinsert : insertRow V m (made V m (stamped V operator m data)) t with
    | none => trivial
    | some q =>
      simp only [meets_bind, meets_execute, ending_ok]
      have hstays : Stays c t q.2 := by
        refine insertRow_stays (parental m) ht hinsert (fun x column hhome => ?_)
          (fun k => parental_of_home hm) (somebody hsystem) fun x k hk p hp => ?_
        · obtain ⟨rfl, htenant⟩ := own_tenant hhome
          obtain ⟨k, hk, hcolumn⟩ := List.mem_map.mp (tenant_mem htenant)
          rw [← hcolumn, made_refs hk, hcolumn, stamped_tenant hc htenant]
          rfl
        · obtain ⟨-, href⟩ := follow_eq_some.mp hp
          have hasked : asked (stamped V operator m data) (none : Option (Row δ)) k = some p.id := by
            rw [asked, ← made_refs hk, href, Option.filter_some_pos]
            rfl
          exact ((hfits k hk p.id hasked).lasting hbt).leads href hp
      refine meets_commit hstays fun u hu htu => ?_
      rw [ending_ok]
      exact get_meets trivial fun p _ => ⟨rfl, hu, hsb.trans (hbt.trans (hstays.lasting.trans htu))⟩

theorem ensureReferrers_meets {post : Unit → Except Fault (Unit × Unit) → Store δ → Store δ → Prop}
    (h : m.hasTenant = true → tenantOf data row = row.refs .tenantId) (hpost : post g (.ok ((), μ)) b v) :
    (ensureReferrersStillReach m data row : Db δ Unit).Meets (confined c) post g μ b v := by
  unfold ensureReferrersStillReach
  rw [if_pos]
  · exact hpost
  · cases htenant : m.hasTenant with
    | false => simp
    | true => simp [h htenant]

theorem ensureChildren_meets {post : Unit → Except Fault (Unit × Unit) → Store δ → Store δ → Prop}
    (h : m.hasTenant = true → tenantOf data row = some c) (hpost : post g (.ok ((), μ)) b v) :
    (ensureChildrenStayShared m data row : Db δ Unit).Meets (confined c) post g μ b v := by
  unfold ensureChildrenStayShared
  rw [if_pos]
  · exact hpost
  · cases htenant : m.hasTenant with
    | false => simp
    | true => simp [h htenant]

/-- A row that an operator of a brand may write belongs to the brand. -/
theorem find_writing (hs : Sound schema s) (hc : operator.tenantId = some c) (hm : m.managed = true)
    (hsystem : m.systemWide = false) (h : find operator m id true s = some p) :
    p ∈ s m ∧ p.id = id ∧ owner brands s m p = some c := by
  obtain ⟨hp, hid, howner⟩ := find_eq_some hs hc hm h
  refine ⟨hp, hid, howner.resolve_right fun hnone => ?_⟩
  rw [hnone.1 rfl] at hsystem
  cases hsystem

theorem update_meets (hc : operator.tenantId = some c) (hm : m.managed = true)
    (hsystem : m.systemWide = false) (hs : Fenced brands s) :
    (update V operator m id data).Meets (confined c)
      (ending (fun _ _ b v => Later s b v) fun _ _ _ _ => True) g μ s s := by
  unfold update
  rw [meets_bind]
  refine get_meets trivial fun row hfind => ?_
  obtain ⟨hrow, -, howner⟩ := find_writing hs.toSound hc hm hsystem hfind
  have hfound : Fits c true s m row.id := fits_of_mem hrow (.inl howner)
  have htenant : m.hasTenant = true → row.refs .tenantId = some c := fun h =>
    (owner_own (home_of_hasTenant h)).symm.trans howner
  have hnamed : m.hasTenant = true → tenantOf (stamped V operator m data) row = some c := by
    intro h
    rw [tenantOf, stamped_tenant hc h, Option.getD_some]
  rw [ending_ok, meets_bind]
  refine meets_pass hs fun t ht hst => ?_
  rw [ending_ok]
  refine (ensureReferences_meets hc hm (fun _ h => h) ht).bind ?_ (fun _ _ _ _ _ => trivial)
  rintro g - - b v ⟨⟨rfl, hb, htb⟩, hfits⟩
  rw [meets_bind]
  refine ensureReferrers_meets (fun h => (hnamed h).trans (htenant h).symm) ?_
  rw [ending_ok, meets_bind]
  refine ensureChildren_meets hnamed ?_
  simp only [ending_ok, meets_bind, meets_query]
  cases validate V m (stamped V operator m data) (some row) b with
  | some e => trivial
  | none =>
    simp only [meets_bind]
    refine meets_pass hb fun u hu hbu => ?_
    have hstays : moveIdentities V m (stamped V operator m data) row u = some u :=
      if_neg fun h => h.2 ((hnamed (h.1 ▸ rfl)).trans (htenant (h.1 ▸ rfl)).symm)
    simp only [ending_ok, meets_bind, meets_query, hstays, meets_execute]
    cases hupdate : updateRow V m (stamped V operator m data) row u with
    | error e => trivial
    | ok w =>
      simp only [meets_bind, meets_execute, ending_ok]
      have hstays : Stays c u w := updateRow_stays hm hu hupdate
        (hfound.lasting (hst.trans (htb.trans hbu))) (fun h => stamped_tenant hc h)
        fun k hk id hid => (hfits k hk id hid).lasting hbu
      refine meets_commit hstays fun x hx hwx => ?_
      rw [ending_ok]
      exact get_meets trivial fun p _ =>
        ⟨rfl, hx, hst.trans (htb.trans (hbu.trans (hstays.lasting.trans hwx)))⟩

theorem deleteRecord_meets (hc : operator.tenantId = some c) (hm : m.managed = true)
    (hsystem : m.systemWide = false) (hs : Fenced brands s) :
    (deleteRecord V operator m id).Meets (confined c)
      (ending (fun _ _ b v => Later s b v) fun _ _ _ _ => True) g μ s s := by
  unfold deleteRecord
  rw [meets_bind]
  refine get_meets trivial fun row hfind => ?_
  obtain ⟨hrow, rfl, howner⟩ := find_writing hs.toSound hc hm hsystem hfind
  have hfound : Fits c true s m row.id := fits_of_mem hrow (.inl howner)
  rw [ending_ok, meets_bind]
  refine meets_pass hs fun t ht hst => ?_
  simp only [ending_ok, meets_bind, meets_query]
  cases hdelete : deleteRow V m row.id t with
  | none => trivial
  | some u =>
    simp only [meets_bind, meets_execute, ending_ok]
    have hroots : Within c t m (fun _ i => i = row.id) := by
      intro w htw p hp hid
      have hfits := (hfound.lasting hst).lasting htw.lasting
      exact (hfits.owner p hp (of_decide_eq_true hid)).resolve_right fun h => Bool.noConfusion h.1
    obtain ⟨w, hw, hu⟩ := Option.bind_eq_some_iff.mp hdelete
    have hstays : Stays c t u :=
      deleteIds_stays hroots (deleteDependents_stays _ (dependents_suit m) hroots (.refl ht) hw) hu
    exact meets_commit hstays fun x hx hux => ⟨rfl, hx, hst.trans (hstays.lasting.trans hux)⟩

/-- Rows of the brand that stand elsewhere in an order are where they were in everything else. -/
theorem placed_stays {ids : List ℕ} {moved : ℕ → Bool} (hs : Fenced brands s)
    (h : ∀ r ∈ s m, moved r.id = true → owner brands s m r = some c) :
    Stays c s (Function.update s m ((s m).modify (fun r => moved r.id) (placed V ids)
      (still_placed V ids))) := by
  refine stays_of_edits hs (edits_modify (still_placed V ids) hs.toSound (fun r hr hmoved => ?_)
    fun r hr _ => hs.given m r hr)
  have howner := h r hr hmoved
  refine ⟨howner, fun a ha haid => ?_, fun hnew => absurd rfl (hnew r hr), fun column hhome => ?_,
    fun k hhome => ?_, fun hhome => ?_, fun k hk hset => ?_⟩
  · obtain rfl : a = r := Table.eq_of_id ha hr haid
    exact howner
  · rw [owner_own hhome] at howner
    exact howner
  · rw [owner_through hhome] at howner
    exact Option.bind_eq_some_iff.mp howner
  · rw [owner_nobody hhome] at howner
    cases howner
  · obtain ⟨p, hp⟩ := hs.leads m r hr k hk hset
    exact ⟨p, hp, howner ▸ hs.fence m r hr k hk p hp⟩

/-- A row an operator of a brand reads to put it elsewhere belongs to the brand, as long as it is there. -/
theorem moves_owner {ids : List ℕ} {rows : List (Row δ)} (hc : operator.tenantId = some c)
    (hm : m.managed = true) (hsystem : m.systemWide = false) (hs : Sound schema s)
    (hst : Lasting brands s t) (hrows : ∀ a ∈ rows, a ∈ s m ∧ confinement operator m true s a = true)
    (hr : r ∈ t m) (hmoves : moves V ids rows r.id = true) : owner brands t m r = some c := by
  obtain ⟨a, ha, hmoved⟩ := List.any_eq_true.mp hmoves
  obtain ⟨hmem, hconfined⟩ := hrows a ha
  have hid : a.id = r.id := of_decide_eq_true ((Bool.and_eq_true _ _).mp hmoved).1
  have hfind : find operator m a.id true s = some a :=
    Option.filter_eq_some_iff.mpr ⟨Table.get_of_mem hmem, hconfined⟩
  have howner := (find_writing hs hc hm hsystem hfind).2.2
  have hfits : Fits c true t m a.id := (fits_of_mem hmem (.inl howner)).lasting hst
  exact (hfits.owner r hr hid.symm).resolve_right fun hnone => Bool.noConfusion hnone.1

theorem reorder_meets {ids : List ℕ} (hc : operator.tenantId = some c) (hm : m.managed = true)
    (hsystem : m.systemWide = false) (hs : Fenced brands s) :
    (reorder V operator m ids).Meets (confined c)
      (ending (fun _ _ b v => Later s b v) fun _ _ _ _ => True) g μ s s := by
  unfold reorder
  simp only [meets_bind, meets_query, ending_ok]
  have hrows : ∀ a ∈ (s m).select (fun r => confinement operator m true s r && ids.contains r.id),
      a ∈ s m ∧ confinement operator m true s a = true := fun a ha =>
    (Table.mem_select.mp ha).imp_right fun h => ((Bool.and_eq_true _ _).mp h).1
  generalize (s m).select (fun r => confinement operator m true s r && ids.contains r.id) = rows at hrows ⊢
  refine meets_ite.mpr ⟨fun _ => trivial, fun _ => ?_⟩
  rw [meets_bind]
  refine meets_pass hs fun t ht hst => ?_
  simp only [ending_ok, meets_bind, meets_query]
  refine meets_ite.mpr ⟨fun _ => ?_, fun _ => trivial⟩
  simp only [meets_bind, meets_execute, ending_ok]
  have hstays : Stays c t (Function.update t m ((t m).modify (fun r => moves V ids rows r.id)
      (placed V ids) (still_placed V ids))) :=
    placed_stays ht fun r hr => moves_owner hc hm hsystem hs.toSound hst hrows hr
  refine meets_commit hstays fun u hu htu => ?_
  rw [ending_ok, meets_query]
  exact ⟨rfl, hu, hst.trans (hstays.lasting.trans htu)⟩

/-- Each call of an operator of a brand stays within the brand. -/
theorem serve_meets (call : Call π) (hc : operator.tenantId = some c) (hs : Fenced brands s)
    (ha : Account c operator s) :
    (call.serve V operator).Meets (confined c) (ending (fun _ _ b v => b = v) fun _ _ _ _ => True)
      g μ s s := by
  unfold Call.serve
  refine meets_ite.mpr ⟨fun _ => trivial, fun hrouted => meets_ite.mpr ⟨fun _ => trivial, fun hkept => ?_⟩⟩
  have hm : call.model.managed = true := by
    cases call <;> simp_all [Call.routed, Call.model]
  have hsystem : call.model.systemWide = false := by simpa [hc] using hkept
  have htrail : ∀ {α : Type} {x : Db δ α}, x.Meets (confined c)
      (ending (fun _ _ b v => Later s b v) fun _ _ _ _ => True) g μ s s →
      (x >>= fun _ => written V operator).Meets (confined c)
        (ending (fun _ _ b v => b = v) fun _ _ _ _ => True) g μ s s := by
    intro α x hx
    refine hx.bind ?_ fun _ _ _ _ _ => trivial
    rintro g - - b v ⟨rfl, hb, hsb⟩
    refine (written_meets hc hb (ha.lasting hsb)).mono ?_
    rintro _ (e | ⟨_, _⟩) b v h
    · trivial
    · exact h.1
  cases call with
  | create m data => exact htrail (create_meets hc hm hsystem hs)
  | update m id data => exact htrail (update_meets hc hm hsystem hs)
  | delete m id =>
    exact meets_ite.mpr ⟨fun _ => trivial, fun _ => htrail (deleteRecord_meets hc hm hsystem hs)⟩
  | reorder m ids => exact htrail (reorder_meets hc hm hsystem hs)

end FastKit.Crud
