import FastKit.Crud.Alone
import FastKit.Relational.Assigned

/-! # Where a row that was checked leads

The brand a row is destined to is the one its payload names, or that of the parent it names. What its
resource checks leaves it leading to what that brand reaches.
-/

namespace FastKit.Crud
open Relational Transaction

variable {π δ : Type} {V : Services π δ} {m n : Model} {s t : Store δ} {r p row : Row δ}
  {k : Key Model Column} {data : Data π} {instance' : Option (Row δ)} {id : ℕ} {tenantId : Option ℕ}

/-- The brand a row belongs to as its payload has it. -/
def destined (m : Model) (data : Data π) (instance' : Option (Row δ)) (s : Store δ) : Option ℕ :=
  match m.home with
  | .own column => declared data instance' column
  | .through k => (declared data instance' k.column).bind (ownerOf brands s k.target)
  | .nobody => none

theorem ofParent_eq_none {check : Option ℕ → Option Fault} {parentId : Option ℕ}
    (h : ofParent n parentId check s = none) (hn : n.hasTenant = true) :
    ∃ id, parentId = some id ∧ check (ownerOf brands s n id) = none := by
  unfold ofParent at h
  cases hparent : parentId.bind (s n).get with
  | none =>
    rw [hparent] at h
    cases h
  | some p =>
    rw [hparent] at h
    obtain ⟨id, hid, hget⟩ := Option.bind_eq_some_iff.mp hparent
    refine ⟨id, hid, ?_⟩
    rw [ownerOf, hget, Option.bind_some, owner_of_hasTenant hn]
    exact h

theorem ensureReaches_eq_none {fault : Fault} (h : ensureReaches n (some id) tenantId fault s = none)
    (hn : n.hasTenant = true) :
    ownerOf brands s n id = none ∨ ownerOf brands s n id = tenantId := by
  unfold ensureReaches at h
  cases hget : (s n).get id with
  | none =>
    simp [hget] at h
  | some p =>
    rw [ownerOf, hget, Option.bind_some, owner_of_hasTenant hn]
    by_contra hne
    simp [hget, hne] at h

theorem ownerOf_nobody (h : n.home = .nobody) : ownerOf brands s n id = none := by
  unfold ownerOf
  cases (s n).get id with
  | none => rfl
  | some p => exact owner_nobody h

def checkedKeys : List (Model × Key Model Column) :=
  [(.product, keeping .creditsCurrencyId .currency true),
    (.content, keeping .categoryId .contentCategory true),
    (.benefit, keeping .productId .product true), (.benefit, keeping .currencyId .currency true),
    (.externalProduct, keeping .planId .plan false), (.planEntitlement, owning .entitlementId .entitlement)]

/-- A row leads to one of no brand, or to its parent, or its resource checks where it leads. -/
theorem managed_keys (hm : m.managed = true) (hk : k ∈ m.keys) :
    k.target.home = .nobody ∨ m.home = .through k ∨ (m, k) ∈ checkedKeys := by
  cases m <;> first | (revert hk; decide +revert) | cases hm

theorem destined_tenant (h : m.hasTenant = true) :
    destined m data instance' s = declared data instance' .tenantId := by
  rw [destined, home_of_hasTenant h]

theorem destined_parent {id : ℕ} (h : m.home = .through k) (hid : declared data instance' k.column = some id) :
    destined m data instance' s = ownerOf brands s k.target id := by
  simp only [destined, h, hid, Option.bind_some]

/-- What a row that passes points at belongs to the brand it is destined to, or to none. -/
theorem validateReaches_leads (hm : m.managed = true) (h : validateReaches m data instance' s = none)
    (hk : k ∈ m.keys) (hid : declared data instance' k.column = some id) :
    ownerOf brands s k.target id = none ∨
      ownerOf brands s k.target id = destined m data instance' s := by
  rcases managed_keys hm hk with hnobody | hhome | hchecked
  · exact .inl (ownerOf_nobody hnobody)
  · exact .inr (destined_parent hhome hid).symm
  · simp only [checkedKeys, List.mem_cons, Prod.mk.injEq, List.not_mem_nil, or_false] at hchecked
    rcases hchecked with ⟨rfl, rfl⟩ | ⟨rfl, rfl⟩ | ⟨rfl, rfl⟩ | ⟨rfl, rfl⟩ | ⟨rfl, rfl⟩ | ⟨rfl, rfl⟩ <;>
      simp only [keeping, owning] at hid ⊢ <;> simp only [validateReaches] at h
    · rw [hid] at h
      exact ensureReaches_eq_none h rfl
    · rw [hid] at h
      exact ensureReaches_eq_none h rfl
    · obtain ⟨parentId, hparent, hcheck⟩ := ofParent_eq_none h rfl
      rw [destined_parent (k := owning .entitlementId .entitlement) rfl hparent]
      rw [hid, Option.or_eq_none_iff] at hcheck
      exact ensureReaches_eq_none hcheck.1 rfl
    · obtain ⟨parentId, hparent, hcheck⟩ := ofParent_eq_none h rfl
      rw [destined_parent (k := owning .entitlementId .entitlement) rfl hparent]
      rw [hid, Option.or_eq_none_iff] at hcheck
      exact ensureReaches_eq_none hcheck.2 rfl
    · obtain ⟨parentId, hparent, hcheck⟩ := ofParent_eq_none h rfl
      rw [destined_parent (k := owning .integrationId .integration) rfl hparent]
      rw [hid] at hcheck
      exact ensureReaches_eq_none hcheck rfl
    · obtain ⟨parentId, hparent, hcheck⟩ := ofParent_eq_none h rfl
      rw [destined_parent (k := owning .planId .plan) rfl hparent]
      rw [hid] at hcheck
      exact ensureReaches_eq_none hcheck rfl

theorem made_declared (hk : k ∈ m.keys) :
    (made V m data id).refs k.column = declared data (none : Option (Row δ)) k.column := by
  rw [made_refs hk, declared, Option.bind_none]
  cases data.refs k.column <;> rfl

theorem edited_declared (hk : k ∈ m.keys) :
    (edited V m data row row).refs k.column = declared data (some row) k.column := by
  have hcolumn : k.column ∈ m.keys.map Key.column := List.mem_map.mpr ⟨k, hk, rfl⟩
  simp only [edited, if_pos hcolumn, declared, Option.bind_some]
  cases data.refs k.column with
  | none => rfl
  | some value =>
    dsimp only [Option.getD_some]
    split_ifs with hsame
    · exact hsame.symm
    · rfl

/-- A table whose rows belong to a brand through rows that are managed is one nothing belongs through. -/
theorem home_leaf {i j : Model} {l : Key Model Column} (hm : m.managed = true) (hj : j.home = .through l)
    (hl : l.target = m) (hi : i.home = .through k) : k.target ≠ j := by
  have hbranch : k.target ∈ [Model.user, .gallery, .banner, .integration, .plan, .entitlement,
      .subscription, .subscriptionBenefit] := by
    cases i <;> cases hi <;> decide
  have hleaf : j ∉ [Model.user, .gallery, .banner, .integration, .plan, .entitlement, .subscription,
      .subscriptionBenefit] := by
    cases j <;> cases hj <;> subst hl <;> first | decide | cases hm
  rintro rfl
  exact hleaf hbranch

/-- What belongs through a row that is managed belongs through one of a tenant. -/
theorem home_parent {i : Model} (hm : m.managed = true) (hi : i.home = .through k) (hk : k.target = m) :
    m.hasTenant = true := by
  cases i <;> cases hi <;> subst hk <;> first | rfl | cases hm

theorem not_identity {i : Model} (hk : k ∈ i.keys) : k.target ≠ .socialIdentity := by
  cases i <;> revert hk <;> decide +revert

/-- The keys of a child that sharing its parent asks of, and the ones it does not. -/
theorem child_keys {i : Model} {l : Key Model Column} (hm : m.managed = true) (hi : i.home = .through l)
    (hl : l.target = m) (hk : k ∈ i.keys) (hne : k ≠ l) : (i, l.column, k) ∈ childKeys m ∨
      k.target.home = .nobody ∨ (i = .creditTransaction ∨ i = .userProduct) ∧ m = .user ∧
        k.column = .benefitGrantId ∧ k.target = .benefitGrant := by
  cases i <;> cases hi <;> subst hl <;> first | (revert hk hne; decide +revert) | cases hm

theorem childKeys_tenant {i : Model} {column : Column} (h : (i, column, k) ∈ childKeys m) :
    k.target.hasTenant = true := by
  obtain ⟨child, -, hmem⟩ := List.mem_flatMap.mp h
  split at hmem
  · cases hmem
  · split_ifs at hmem
    · obtain ⟨l, hl, heq⟩ := List.mem_map.mp hmem
      obtain ⟨-, -, rfl⟩ := Prod.mk.inj heq |>.imp_right Prod.mk.inj
      have hkept := (List.mem_filter.mp hl).2
      rw [Bool.and_eq_true] at hkept
      exact hkept.2
    · cases hmem

/-- What an assignment has to say of a row that was written. -/
structure Settles (whose : Model → ℕ → Option ℕ) (m : Model) (data : Data π) (instance' : Option (Row δ))
    (s : Store δ) (r : Row δ) : Prop where
  refs : ∀ k ∈ m.keys, r.refs k.column = declared data instance' k.column
  mine : whose m r.id = destined m data instance' s
  leads : ∀ k ∈ m.keys, ∀ id, r.refs k.column = some id → whose k.target id = ownerOf brands s k.target id

variable {whose : Model → ℕ → Option ℕ}

theorem Settles.own (h : Settles whose m data instance' s r) {column : Column} (hhome : m.home = .own column) :
    whose m r.id = r.refs column := by
  obtain ⟨rfl, htenant⟩ := own_tenant hhome
  obtain ⟨k, hk, hcolumn⟩ := List.mem_map.mp (tenant_mem htenant)
  rw [h.mine, destined_tenant htenant, ← hcolumn, h.refs k hk]

theorem Settles.through (h : Settles whose m data instance' s r) (hhome : m.home = .through k)
    (hid : r.refs k.column = some id) : whose m r.id = whose k.target id := by
  have hk := (brands.through m k hhome).1
  rw [h.mine, h.leads k hk id hid, destined_parent hhome ((h.refs k hk).symm.trans hid)]

theorem Settles.nobody (h : Settles whose m data instance' s r) (hhome : m.home = .nobody) :
    whose m r.id = none := by
  rw [h.mine, destined, hhome]

theorem Settles.fence (h : Settles whose m data instance' s r) (hm : m.managed = true)
    (hvalid : validateReaches m data instance' s = none) (hk : k ∈ m.keys) (hid : r.refs k.column = some id) :
    whose k.target id = none ∨ whose k.target id = whose m r.id := by
  rw [h.mine, h.leads k hk id hid]
  exact validateReaches_leads hm hvalid hk ((h.refs k hk).symm.trans hid)

/-- The brands of the rows with one that is added. -/
def withAdded (m : Model) (id : ℕ) (x : Option ℕ) (s : Store δ) (i : Model) (j : ℕ) : Option ℕ :=
  if i = m ∧ j = id then x else ownerOf brands s i j

/-- A row that is added leads nowhere but to what its brand reaches. -/
theorem insertRow_fenced (hm : m.managed = true) (hs : Fenced brands s)
    (hvalid : validateReaches m data none s = none) (h : insertRow V m (made V m data) s = some (row, t)) :
    Fenced brands t ∧ row ∈ t m ∧ owner brands t m row = destined m data (none : Option (Row δ)) s := by
  obtain ⟨table, hinsert, rfl, hkeys⟩ := insertRow_eq_some h
  obtain ⟨hrow, hrowid, -⟩ := Table.insert_eq_some hinsert
  have hrows : ∀ {i} {r : Row δ}, r ∈ Function.update s m table i ↔ r ∈ s i ∨ i = m ∧ r = row :=
    mem_update_insert hinsert
  have hthere : row ∈ Function.update s m table m := hrows.mpr (.inr ⟨rfl, rfl⟩)
  have hsound : Sound schema (Function.update s m table) := by
    refine .written (s := s) (fun i p hp => ⟨p, hrows.mpr (.inl hp), rfl⟩) fun i r hr k hk => ?_
    rcases hrows.mp hr with hold | ⟨rfl, rfl⟩
    · exact hs.toSound.rows hold hk
    · exact hkeys k hk
  let whose := withAdded m row.id (destined m data (none : Option (Row δ)) s) s
  have hsame : ∀ {i} {p : Row δ}, p ∈ s i → whose i p.id = ownerOf brands s i p.id := by
    intro i p hp
    refine if_neg ?_
    rintro ⟨rfl, hid⟩
    exact absurd (hid.trans hrowid) (Nat.ne_of_lt ((s i).fresh p hp))
  have hleads : ∀ {r : Row δ} {k : Key Model Column} {id : ℕ}, (∃ p, follow s r k = some p) →
      r.refs k.column = some id → whose k.target id = ownerOf brands s k.target id := by
    rintro r k id ⟨p, hp⟩ hid
    obtain ⟨hmem, href⟩ := follow_eq_some.mp hp
    obtain rfl : p.id = id := Option.some.inj (href.symm.trans hid)
    exact hsame hmem
  have hnew : Settles whose m data none s row :=
    ⟨fun k hk => hrow ▸ made_declared hk, if_pos ⟨rfl, rfl⟩,
      fun k hk id hid => hleads ((hkeys k hk).2 (by simp [hid])) hid⟩
  have hold := assigns_ownerOf (O := brands) hs.toSound
  have hfollows : ∀ {i} {r : Row δ} {k : Key Model Column} {id : ℕ}, r ∈ s i → k ∈ i.keys →
      r.refs k.column = some id → whose k.target id = ownerOf brands s k.target id := by
    intro i r k id hr hk hid
    exact hleads (hs.leads i r hr k hk (by simp [hid])) hid
  have hassigns : Assigns brands (Function.update s m table) whose := by
    refine ⟨fun i r hr column hhome => ?_, fun i r hr k hhome id hid => ?_, fun i r hr hhome => ?_⟩ <;>
      rcases hrows.mp hr with hwas | ⟨rfl, rfl⟩
    · exact (hsame hwas).trans (hold.own i r hwas column hhome)
    · exact hnew.own hhome
    · rw [hsame hwas, hfollows hwas (brands.through i k hhome).1 hid]
      exact hold.through i r hwas k hhome id hid
    · exact hnew.through hhome hid
    · exact (hsame hwas).trans (hold.nobody i r hwas hhome)
    · exact hnew.nobody hhome
  refine ⟨hassigns.fenced hsound fun i r hr k hk id hid => ?_, hthere, ?_⟩
  · rcases hrows.mp hr with hwas | ⟨rfl, rfl⟩
    · rw [hsame hwas, hfollows hwas hk hid]
      exact hs.ownerOf hwas hk hid
    · exact hnew.fence hm hvalid hk hid
  · rw [hassigns.owner hsound hthere, hnew.mine]

end FastKit.Crud
