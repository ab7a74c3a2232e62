import FastKit.Crud.Brands
import FastKit.Relational.Leaving

/-! # A tenant that is deleted

What goes before a tenant goes in an order in which nothing is refused: as each table is deleted, the
tables whose rows of the brand keep its own are rid of them. With the tenant everything of its brand
is gone, and the rest is as it was.
-/

namespace FastKit.Crud
open Relational Transaction Transaction.Program

variable {π δ : Type} {V : Services π δ} {operator : Operator} {m parent model : Model} {field : Column}
  {s t u : Store δ} {r p : Row δ} {c id : ℕ} {gone : List Model}
  {parents ids : Store δ → ℕ → Bool}

theorem headed : Headed brands .tenant where
  nobody := rfl
  own m := by cases m <;> decide
  key m column h := by cases m <;> cases h <;> decide

/-- What is deleted with a brand, of a table. -/
abbrev Gone (c : ℕ) (s : Store δ) (m : Model) (r : Row δ) : Prop := Mine brands .tenant c s m r

/-- What a purchase of a brand names is a user of it. -/
def Bought (c : ℕ) (s : Store δ) : Prop :=
  ∀ r ∈ s .purchase, r.refs .tenantId = some c →
    ∃ p ∈ s .user, r.refs .userId = some p.id ∧ p.refs .tenantId = some c

/-- Whether the column of every row of a table that belongs to a brand leads to what goes with it. -/
def covers (model : Model) (field : Column) : Bool :=
  match model.home with
  | .own column => column = field || model = .purchase && field = .userId
  | .through k => k.column = field
  | .nobody => false

mutual

/-- The tables without a row of the brand once a table is gone and what goes before it, where none
of its rows is kept by one that is left. -/
def Dependent.clears (whole : Bool) : Dependent → List Model → Option (List Model)
  | ⟨model, field, ds⟩, gone =>
    (clearsAll (whole && covers model field) ds gone).bind (fun gone =>
      if schema.safe model gone then
        some (if whole && covers model field then model :: gone else gone)
      else none)

def clearsAll (whole : Bool) : List Dependent → List Model → Option (List Model)
  | [], gone => some gone
  | d :: ds, gone => (d.clears whole gone).bind (clearsAll whole ds)

end

theorem tenantDependents_clear :
    (clearsAll true tenantDependents []).any (schema.safe .tenant) = true := by decide +kernel

/-- What is left of a store some of a brand is deleted of. -/
structure Shrinks (c : ℕ) (s t : Store δ) : Prop extends Stays c s t where
  fewer : Fewer schema s t

/-- The tables have no row of the brand left. -/
def Cleared (c : ℕ) (gone : List Model) (s : Store δ) : Prop := ∀ m ∈ gone, ∀ r ∈ s m, ¬Gone c s m r

/-- The ids are of all that a table has of the brand, however much of it is deleted. -/
def Whole (c : ℕ) (s : Store δ) (model : Model) (ids : Store δ → ℕ → Bool) : Prop :=
  ∀ t, Shrinks c s t → ∀ p ∈ t model, Gone c t model p → ids t p.id = true

/-- The ids are of the tenant itself, or of rows of its brand. -/
def Parents (c : ℕ) (s : Store δ) (parent : Model) (parents : Store δ → ℕ → Bool) : Prop :=
  parent = .tenant ∧ parents = (fun _ id => decide (id = c)) ∨ Within c s parent parents

/-- A row of the brand that is left was there, and of the brand. -/
theorem gone_of_fewer (hlast : Lasting brands t u) (hfewer : Fewer schema t u) (hr : r ∈ u m)
    (h : Gone c u m r) : ∃ a ∈ t m, a.id = r.id ∧ Gone c t m a := by
  obtain ⟨a, ha, hid, -⟩ := hfewer m r hr
  refine ⟨a, ha, hid, h.imp (fun howner => ?_) fun htenant => ⟨htenant.1, hid.trans htenant.2⟩⟩
  obtain ⟨b, hb, hid', howner'⟩ := hlast.owner m r hr (hid ▸ (t m).fresh a ha)
  obtain rfl : b = a := Table.eq_of_id hb ha (hid'.trans hid.symm)
  exact howner'.trans howner

theorem Parents.among (h : Parents c s parent parents)
    (hfield : model.keys.any (fun k => k.column = field && k.target = parent) = true) :
    Within c s model (among model field parents) := by
  rcases h with ⟨rfl, rfl⟩ | h
  · intro t _ r hr hamong
    obtain ⟨k, hk, hkey⟩ := List.any_eq_true.mp hfield
    obtain ⟨hcolumn, htarget⟩ := (Bool.and_eq_true _ _).mp hkey
    obtain rfl : k.column = field := of_decide_eq_true hcolumn
    obtain ⟨id, href, hid⟩ := (mem_among hr).mp hamong
    obtain rfl : id = c := of_decide_eq_true hid
    have howner : owner brands t model r = r.refs k.column :=
      owner_own (headed.own model k hk (of_decide_eq_true htarget))
    exact howner.trans href
  · exact h.among hfield

/-- A row that belongs to a brand names, in a column that covers its table, what goes with the brand. -/
theorem gone_of_covers {k : Key Model Column} (hbought : Bought c s) (hst : Shrinks c s t) (hr : r ∈ t model)
    (h : Gone c t model r) (hk : k ∈ model.keys) (hcovers : covers model k.column = true) :
    ∃ p, follow t r k = some p ∧ Gone c t k.target p := by
  cases hhome : model.home with
  | nobody =>
    rw [covers, hhome] at hcovers
    cases hcovers
  | through l =>
    have howner := h.resolve_right fun htenant => by
      rw [htenant.1] at hhome
      cases hhome
    rw [owner_through hhome] at howner
    obtain ⟨p, hp, howner⟩ := Option.bind_eq_some_iff.mp howner
    rw [covers, hhome] at hcovers
    obtain rfl : l = k :=
      schema.eq_of_column (brands.through model l hhome).1 hk (of_decide_eq_true hcovers)
    exact ⟨p, hp, .inl howner⟩
  | own column =>
    have howner := h.resolve_right fun htenant => by
      rw [htenant.1] at hhome
      cases hhome
    rw [covers, hhome, Bool.or_eq_true] at hcovers
    rcases hcovers with hcolumn | hpurchase
    · obtain rfl : column = k.column := of_decide_eq_true hcolumn
      rw [owner_own hhome] at howner
      obtain ⟨l, hl, hsame, htenant, -⟩ := headed.key model k.column hhome
      obtain rfl : l = k := schema.eq_of_column hl hk hsame
      obtain ⟨p, hp⟩ := hst.fenced.leads model r hr l hk (by simp [howner])
      have hid := (follow_eq_some.mp hp).2
      rw [howner] at hid
      exact ⟨p, hp, .inr ⟨htenant, (Option.some.inj hid).symm⟩⟩
    · obtain ⟨hmodel, huser⟩ := (Bool.and_eq_true _ _).mp hpurchase
      obtain rfl : model = .purchase := of_decide_eq_true hmodel
      obtain rfl : owning .userId .user = k :=
        schema.eq_of_column (i := .purchase) (by decide) hk (of_decide_eq_true huser).symm
      obtain ⟨a, ha, -, hkeys⟩ := hst.fewer .purchase r hr
      have htenant : r.refs .tenantId = a.refs .tenantId := hkeys tenantKey (by decide) (by decide)
      have hkept : r.refs .userId = a.refs .userId := hkeys (owning .userId .user) hk (by decide)
      have hbrand : r.refs .tenantId = some c := by
        rwa [owner_of_hasTenant rfl] at howner
      obtain ⟨p, hp, href, hown⟩ := hbought a ha (htenant.symm.trans hbrand)
      obtain ⟨b, hb⟩ := hst.fenced.leads .purchase r hr (owning .userId .user) hk
        (by simp [owning, hkept, href])
      obtain ⟨hmem, hid⟩ := follow_eq_some.mp hb
      refine ⟨b, hb, .inl ?_⟩
      have hsame : b.id = p.id := Option.some.inj (hid.symm.trans (hkept.trans href))
      obtain ⟨d, hd, hdid, howned⟩ := hst.lasting.owner .user b hmem (hsame ▸ (s .user).fresh p hp)
      obtain rfl : d = p := Table.eq_of_id hd hp (hdid.trans hsame)
      rw [owner_of_hasTenant rfl] at howned
      exact howned.symm.trans hown

theorem Whole.among (h : Whole c s parent parents) (hbought : Bought c s)
    (hfield : model.keys.any (fun k => k.column = field && k.target = parent) = true)
    (hcovers : covers model field = true) : Whole c s model (among model field parents) := by
  intro t hst r hr hgone
  obtain ⟨k, hk, hkey⟩ := List.any_eq_true.mp hfield
  obtain ⟨hcolumn, htarget⟩ := (Bool.and_eq_true _ _).mp hkey
  obtain rfl : k.column = field := of_decide_eq_true hcolumn
  obtain rfl : k.target = parent := of_decide_eq_true htarget
  obtain ⟨p, hp, hparent⟩ := gone_of_covers hbought hst hr hgone hk hcovers
  obtain ⟨hmem, href⟩ := follow_eq_some.mp hp
  exact (mem_among hr).mpr ⟨p.id, href, h t hst p hmem hparent⟩

/-- A table is deleted of where those whose rows keep its own are rid of the brand. -/
theorem deleteIds_clears (lenient : Bool) (hids : Within c s model ids) (hst : Shrinks c s t)
    (hgone : Cleared c gone t) (hsafe : schema.safe model gone = true) : ∃ u, deleteIds lenient model ids t = some u ∧
      Shrinks c s u ∧ Cleared c gone u ∧ (Whole c s model ids → Cleared c (model :: gone) u) := by
  have hroots : ∀ i, ∀ r ∈ t i, (decide (i = model) && ids t r.id) = true → Gone c t i r := by
    intro i r hr hroot
    obtain ⟨hi, hid⟩ := (Bool.and_eq_true _ _).mp hroot
    obtain rfl : i = model := of_decide_eq_true hi
    exact .inl (hids t hst.toStays r hr hid)
  have honly : ∀ i id, (decide (i = model) && ids t id) = true → i = model := fun i id h =>
    of_decide_eq_true ((Bool.and_eq_true _ _).mp h).1
  have hdelete : deleteIds lenient model ids t = some _ :=
    delete_accepted lenient hst.fenced headed hroots honly hgone hsafe
  have hstays := deleteIds_stays (fun v hv => hids v (hst.toStays.trans hv)) (Stays.refl hst.fenced) hdelete
  have hkept : Cleared c gone (swept schema t (fun i id => decide (i = model) && ids t id)) := by
    intro m hm r hr hrow
    obtain ⟨a, ha, -, harow⟩ := gone_of_fewer hstays.lasting fewer_swept hr hrow
    exact hgone m hm a ha harow
  refine ⟨_, hdelete, ⟨hst.toStays.trans hstays, hst.fewer.trans fewer_swept⟩, hkept, fun hwhole => ?_⟩
  intro m hm r hr hrow
  rcases List.mem_cons.mp hm with rfl | hm
  · obtain ⟨a, ha, hid, harow⟩ := gone_of_fewer hstays.lasting fewer_swept hr hrow
    obtain ⟨b, hb, hfalls, rfl⟩ := mem_swept.mp hr
    obtain rfl : b = a := Table.eq_of_id hb ha hid.symm
    have hroot : falls schema t (fun i id => decide (i = m) && ids t id) m b = true :=
      falls_iff.mpr (.inl (by simp [hwhole t hst b hb harow]))
    rw [hroot] at hfalls
    cases hfalls
  · exact hkept m hm r hr hrow

mutual

theorem Dependent.delete_clears {parent : Model} {parents : Store δ → ℕ → Bool} {t : Store δ}
    {whole : Bool} {gone gone' : List Model} (lenient : Bool) (hbought : Bought c s) :
    ∀ d : Dependent, d.suits parent = true → Parents c s parent parents →
      (whole = true → Whole c s parent parents) → Shrinks c s t → Cleared c gone t → d.clears whole gone = some gone' →
      ∃ u, d.delete lenient parents t = some u ∧ Shrinks c s u ∧ Cleared c gone' u
  | ⟨model, field, ds⟩, hsuits, h, hwhole, hst, hgone, hclears => by
    rw [Dependent.suits, Bool.and_eq_true] at hsuits
    rw [Dependent.clears] at hclears
    obtain ⟨gone₁, hds, hclears⟩ := Option.bind_eq_some_iff.mp hclears
    have hamong := h.among hsuits.1
    have hcovered : (whole && covers model field) = true →
        Whole c s model (Crud.among model field parents) := fun hboth =>
      (hwhole ((Bool.and_eq_true _ _).mp hboth).1).among hbought hsuits.1
        ((Bool.and_eq_true _ _).mp hboth).2
    obtain ⟨v, hv, hsv, hcleared⟩ :=
      deleteDependents_clears lenient hbought ds hsuits.2 (.inr hamong) hcovered hst hgone hds
    rw [Dependent.delete, hv, Option.bind_some]
    split_ifs at hclears with hsafe hboth
    · obtain ⟨u, hu, hsu, -, hall⟩ := deleteIds_clears lenient hamong hsv hcleared hsafe
      exact ⟨u, hu, hsu, Option.some.inj hclears ▸ hall (hcovered hboth)⟩
    · obtain ⟨u, hu, hsu, hkept, -⟩ := deleteIds_clears lenient hamong hsv hcleared hsafe
      exact ⟨u, hu, hsu, Option.some.inj hclears ▸ hkept⟩

theorem deleteDependents_clears {parent : Model} {parents : Store δ → ℕ → Bool} {t : Store δ}
    {whole : Bool} {gone gone' : List Model} (lenient : Bool) (hbought : Bought c s) :
    ∀ ds : List Dependent, suitAll parent ds = true → Parents c s parent parents →
      (whole = true → Whole c s parent parents) → Shrinks c s t → Cleared c gone t → clearsAll whole ds gone = some gone' →
      ∃ u, deleteDependents lenient parents ds t = some u ∧ Shrinks c s u ∧ Cleared c gone' u
  | [], _, _, _, hst, hgone, hclears => by
    rw [clearsAll] at hclears
    rw [deleteDependents]
    exact ⟨t, rfl, hst, Option.some.inj hclears ▸ hgone⟩
  | d :: ds, hsuits, h, hwhole, hst, hgone, hclears => by
    rw [suitAll, Bool.and_eq_true] at hsuits
    rw [clearsAll] at hclears
    obtain ⟨gone₁, hd, hclears⟩ := Option.bind_eq_some_iff.mp hclears
    obtain ⟨v, hv, hsv, hcleared⟩ := Dependent.delete_clears lenient hbought d hsuits.1 h hwhole hst hgone hd
    rw [deleteDependents, hv, Option.bind_some]
    exact deleteDependents_clears lenient hbought ds hsuits.2 h hwhole hsv hcleared hclears

end

/-- What is left of what does not go with a brand. -/
theorem Stays.left (h : Stays c s t) : r ∈ t m ∧ ¬Gone c t m r ↔ r ∈ s m ∧ ¬Gone c s m r := by
  constructor
  · rintro ⟨hr, hleft⟩
    have hsame := (h.untouched _ (fun howner => hleft (.inl howner)) m r).mp ⟨hr, rfl⟩
    refine ⟨hsame.1, fun hgone => hleft (hgone.imp_left fun howner => ?_)⟩
    exact hsame.2.symm.trans howner
  · rintro ⟨hr, hleft⟩
    have hsame := (h.untouched _ (fun howner => hleft (.inl howner)) m r).mpr ⟨hr, rfl⟩
    refine ⟨hsame.1, fun hgone => hleft (hgone.imp_left fun howner => ?_)⟩
    exact hsame.2.symm.trans howner

/-- The deletion of a tenant is refused by nothing, and leaves what is not of its brand. -/
theorem deleteRow_tenant (hs : Fenced brands s) (hbought : Bought c s) : ∃ t,
    deleteRow V .tenant c s = some t ∧ Sound schema t ∧ ∀ m r, r ∈ t m ↔ r ∈ s m ∧ ¬Gone c s m r := by
  obtain ⟨gone, hgone, hsafe⟩ := (Option.any_eq_true _ _).mp tenantDependents_clear
  have htenant : Whole c s .tenant (fun _ id => decide (id = c)) := fun t _ p _ hp =>
    decide_eq_true (hp.resolve_left fun howner => by simp [owner_nobody headed.nobody] at howner).2
  obtain ⟨t, ht, hst, hcleared⟩ := deleteDependents_clears V.lenient hbought
    tenantDependents (dependents_suit .tenant) (.inl ⟨rfl, rfl⟩) (fun _ => htenant)
    ⟨.refl hs, .refl s⟩ (by simp [Cleared]) hgone
  have hroots : ∀ i id, (decide (i = Model.tenant) && decide (id = c)) = true ↔ i = .tenant ∧ id = c := by
    simp
  have hdelete := delete_accepted V.lenient hst.fenced headed (fun i r _ h => .inr ((hroots i r.id).mp h))
    (fun i id h => ((hroots i id).mp h).1) hcleared hsafe
  refine ⟨swept schema t (fun i id => decide (i = .tenant) && decide (id = c)), ?_,
    hst.fenced.toSound.delete hdelete, fun m r => ?_⟩
  · rw [deleteRow, Model.dependents, ht, Option.bind_some, deleteIds]
    exact hdelete
  · exact (mem_swept_head hst.fenced headed hroots).trans hst.left

/-- A tenant that is there is deleted, whichever way the database takes a row that falls with one it
keeps: no statement on the way is refused, no key is left pointing at nothing, and what stays is just
what belongs to another brand or to none, as it was. -/
theorem tenant_deleted (hs : Fenced brands s) (hbought : Bought c s) (hthere : ∃ r ∈ s .tenant, r.id = c) :
    ∃ t, (deleteRecord V operator .tenant c).run () s s = (.ok ((), ()), t, t) ∧ Sound schema t ∧
      ∀ m r, r ∈ t m ↔ r ∈ s m ∧ ¬(owner brands s m r = some c ∨ m = .tenant ∧ r.id = c) := by
  obtain ⟨r, hr, rfl⟩ := hthere
  obtain ⟨t, hdelete, hsound, hrows⟩ := deleteRow_tenant (V := V) hs hbought
  have hfind : find operator .tenant r.id true s = some r := by
    have hget : (s .tenant).get r.id = some r := Table.get_of_mem hr
    rw [find, hget]
    simp [confinement, Model.systemWide]
  refine ⟨t, ?_, hsound, hrows⟩
  simp [deleteRecord, get, pass, run_bind, hfind, hdelete]

namespace Mall

/-- A brand that sells, with what is bought of it and what is filed, and one that sells what is shared. -/
def trade : Store Unit
  | .tenant => table [[], []]
  | .user => table [[(.tenantId, 0)], [(.tenantId, 1)]]
  | .currency | .contentCategory => table [[(.tenantId, 0)]]
  | .product => table [[(.tenantId, 0), (.creditsCurrencyId, 0)], []]
  | .purchase => table [[(.tenantId, 0), (.userId, 0), (.productId, 0)],
      [(.tenantId, 1), (.userId, 1), (.productId, 1)]]
  | .content => table [[(.tenantId, 0), (.categoryId, 0)]]
  | _ => .empty

end Mall

/-- What the second brand sold of what is shared is there after the first one is deleted, and nothing
the first one sold. -/
theorem tenant_deleted_mall : ∃ t, (deleteRecord Mall.services ⟨7, none, false⟩ .tenant 0).run () Mall.trade
    Mall.trade = (.ok ((), ()), t, t) ∧ ∀ r, r ∈ t .purchase ↔ r ∈ Mall.trade .purchase ∧ r.id = 1 := by
  have hfenced : Fenced brands Mall.trade := by decide +kernel
  have hbought : Bought 0 Mall.trade := by
    unfold Bought
    decide +kernel
  have hthere : ∃ r ∈ Mall.trade .tenant, r.id = 0 := by decide +kernel
  have howners : ∀ r ∈ Mall.trade .purchase, owner brands Mall.trade .purchase r = some 0 ↔ r.id ≠ 1 := by
    decide +kernel
  obtain ⟨t, hrun, -, hrows⟩ := tenant_deleted hfenced hbought hthere
  refine ⟨t, hrun, fun r => (hrows .purchase r).trans (and_congr_right fun hr => ?_)⟩
  rw [howners r hr]
  simp

end FastKit.Crud
