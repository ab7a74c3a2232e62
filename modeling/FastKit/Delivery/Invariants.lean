import FastKit.Runs

/-! # What the deliveries of every run satisfy

Grants are named by their benefit, and what was moved or handed over for a grant says so
under its name. This holds of a store nothing was delivered in, and every change of a
service keeps it.
-/

namespace FastKit
open Transaction

/-- The deliveries of a store: every grant under the name its benefit gave it, and every
movement and every product handed over for a grant under the grant's. -/
structure Sound (s : Store) : Prop where
  named : ∀ g ∈ s.grants, g.grantKey = (g.subscriptionBenefitId, g.cycleKey) ∧
    ∃ b ∈ s.benefits, b.id = g.subscriptionBenefitId ∧ Named b g
  paid : ∀ e ∈ s.transactions, Paid s e.benefitGrantId e.idempotencyKey
  handed : ∀ p ∈ s.userProducts, HandedOver s p.benefitGrantId p.productId

/-- A store nothing was delivered in. -/
structure Undelivered (s : Store) : Prop where
  grants : s.grants.rows = []
  transactions : s.transactions.rows = []
  userProducts : s.userProducts.rows = []

variable {W : Scope} {s t : Store}

theorem Undelivered.no_grant (h : Undelivered s) {g : BenefitGrant} : g ∉ s.grants := by
  rw [← Table.mem_rows, h.grants]
  exact List.not_mem_nil

theorem Undelivered.no_transaction (h : Undelivered s) {e : CreditTransaction} :
    e ∉ s.transactions := by
  rw [← Table.mem_rows, h.transactions]
  exact List.not_mem_nil

theorem Undelivered.no_userProduct (h : Undelivered s) {p : UserProduct} :
    p ∉ s.userProducts := by
  rw [← Table.mem_rows, h.userProducts]
  exact List.not_mem_nil

theorem Undelivered.sound (h : Undelivered s) : Sound s :=
  ⟨fun _ hg => absurd hg h.no_grant, fun _ he => absurd he h.no_transaction,
    fun _ hp => absurd hp h.no_userProduct⟩

/-- How a grant is named only depends on what its benefit promises. -/
theorem Named.kept {b b' : SubscriptionBenefit} {g g' : BenefitGrant} (h : Named b g)
    (hb : b'.promise = b.promise) (hg : g'.name = g.name) : Named b' g' := by
  have hcad : b'.cadence = b.cadence := congrArg (·.cadence) hb
  have hcyc : g'.cycle = g.cycle := congrArg (·.2.2.2.1) hg
  have hkey : g'.cycleKey = g.cycleKey := congrArg (·.2.2.2.2.1) hg
  have hat : g'.scheduledAt = g.scheduledAt := congrArg (·.2.2.2.2.2) hg
  unfold Named at h ⊢
  rwa [hcad, hcyc, hkey, hat]

theorem Sound.change (h : Sound s) (c : Change W s t) : Sound t := by
  constructor
  · intro g hg
    -- the grant and its benefit are where they were, or the change opened the grant
    have hold : ∃ g₀, (g₀.grantKey = (g₀.subscriptionBenefitId, g₀.cycleKey) ∧
        ∃ b ∈ s.benefits, b.id = g₀.subscriptionBenefitId ∧ Named b g₀) ∧ g.name = g₀.name := by
      rcases c.grant_cases hg with ⟨g₀, hg₀, hm⟩ | ⟨opened, -, -⟩
      · exact ⟨g₀, h.named g₀ hg₀, hm.1⟩
      · obtain ⟨b, hb, hid, hn, -⟩ := opened.benefit
        exact ⟨g, ⟨opened.key, b, hb, hid, hn⟩, rfl⟩
    obtain ⟨g₀, ⟨hkey, b, hb, hid, hn⟩, hname⟩ := hold
    have h1 : g.subscriptionBenefitId = g₀.subscriptionBenefitId := congrArg (·.2.1) hname
    have h2 : g.grantKey = g₀.grantKey := congrArg (·.2.2.1) hname
    have h3 : g.cycleKey = g₀.cycleKey := congrArg (·.2.2.2.2.1) hname
    obtain ⟨b', hb', hp⟩ := c.benefit_kept hb
    have hid' : b'.id = b.id := congrArg (·.id) hp
    exact ⟨by rw [h1, h2, h3, hkey], b', hb', by rw [hid', hid, h1], hn.kept hp hname⟩
  · intro e he
    rcases c.transaction_cases he with he | ⟨hp, -, -⟩
    · exact (h.paid e he).path (.single c)
    · exact hp.path (.single c)
  · intro p hp
    rcases c.userProduct_cases hp with hp | ⟨hh, -, -⟩
    · exact (h.handed p hp).path (.single c)
    · exact hh.path (.single c)

theorem Sound.path (h : Sound s) (c : Path W s t) : Sound t := by
  induction c with
  | refl => exact h
  | tail _ c ih => exact ih.change c

/-- A grant that was there keeps its name. -/
theorem grant_name (c : Path W s t) {g₀ g : BenefitGrant} (hg₀ : g₀ ∈ s.grants)
    (hg : g ∈ t.grants) (hid : g.id = g₀.id) : g.name = g₀.name := by
  obtain ⟨g', hg', hn⟩ := KnownGrant.path ⟨g₀, hg₀, rfl⟩ c
  have hid' : g'.id = g₀.id := congrArg (·.1) hn
  obtain rfl : g = g' := Table.eq_of_id hg hg' (hid.trans hid'.symm)
  exact hn

/-- The benefit a grant is for. -/
theorem Sound.benefit_named (h : Sound s) {g : BenefitGrant} (hg : g ∈ s.grants)
    {b : SubscriptionBenefit} (hb : b ∈ s.benefits) (hid : b.id = g.subscriptionBenefitId) :
    Named b g := by
  obtain ⟨b', hb', hid', hn⟩ := (h.named g hg).2
  obtain rfl : b = b' := Table.eq_of_id hb hb' (hid.trans hid'.symm)
  exact hn

/-- A movement made for a grant is keyed by the grant, as its benefit delivers. -/
theorem Sound.movement_key (h : Sound s) {e : CreditTransaction} (he : e ∈ s.transactions)
    {g : BenefitGrant} (hg : g ∈ s.grants) (heg : e.benefitGrantId = some g.id)
    {b : SubscriptionBenefit} (hb : b ∈ s.benefits) (hid : b.id = g.subscriptionBenefitId) :
    (e.idempotencyKey = .grant g.grantKey ∧ b.benefitType = .credit) ∨
      (e.idempotencyKey = .product g.grantKey ∧ b.benefitType = .product) := by
  obtain ⟨g', hg', b', hb', hgid, hbid, hk⟩ := h.paid e he g.id heg
  obtain rfl : g = g' := Table.eq_of_id hg hg' hgid.symm
  obtain rfl : b = b' := Table.eq_of_id hb hb' (hid.trans hbid.symm)
  exact hk

/-- A grant is paid by one movement. -/
theorem Sound.movement_unique (h : Sound s) {g : BenefitGrant} (hg : g ∈ s.grants)
    {e e' : CreditTransaction} (he : e ∈ s.transactions) (he' : e' ∈ s.transactions)
    (heg : e.benefitGrantId = some g.id) (heg' : e'.benefitGrantId = some g.id) : e = e' := by
  obtain ⟨-, b, hb, hid, -⟩ := h.named g hg
  have hkey : e.idempotencyKey = e'.idempotencyKey := by
    rcases h.movement_key he hg heg hb hid with ⟨hk, ht⟩ | ⟨hk, ht⟩ <;>
      rcases h.movement_key he' hg heg' hb hid with ⟨hk', ht'⟩ | ⟨hk', ht'⟩
    · rw [hk, hk']
    · rw [ht] at ht'; cases ht'
    · rw [ht] at ht'; cases ht'
    · rw [hk, hk']
  exact Table.eq_of_key he he' (List.mem_singleton.mpr rfl) (by rw [hkey]; exact List.mem_singleton.mpr rfl)

/-- A grant hands a user one product over. -/
theorem Sound.product_unique (h : Sound s) {g : BenefitGrant} (hg : g ∈ s.grants)
    {p p' : UserProduct} (hp : p ∈ s.userProducts) (hp' : p' ∈ s.userProducts)
    (hpg : p.benefitGrantId = some g.id) (hpg' : p'.benefitGrantId = some g.id)
    (hu : p.userId = p'.userId) : p = p' := by
  obtain ⟨g₁, hg₁, b₁, hb₁, hid₁, hbg₁, -, hq₁⟩ := h.handed p hp g.id hpg
  obtain ⟨g₂, hg₂, b₂, hb₂, hid₂, hbg₂, -, hq₂⟩ := h.handed p' hp' g.id hpg'
  obtain rfl : g = g₁ := Table.eq_of_id hg hg₁ hid₁.symm
  obtain rfl : g = g₂ := Table.eq_of_id hg hg₂ hid₂.symm
  obtain rfl : b₁ = b₂ := Table.eq_of_id hb₁ hb₂ (hbg₁.trans hbg₂.symm)
  have hproduct : p.productId = p'.productId := Option.some.inj (hq₁.symm.trans hq₂)
  refine Table.eq_of_key hp hp' (List.mem_singleton.mpr rfl) ?_
  rw [hu, hproduct]
  exact List.mem_singleton.mpr rfl

end FastKit
