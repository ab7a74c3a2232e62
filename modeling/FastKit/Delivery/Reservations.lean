import FastKit.Delivery.Invariants

/-! # Once per user

A grant of a benefit granted once per user reserves it for the user, by a unique key that
is opened only where the user does not hold the benefit and given back when the grant is
closed with nothing delivered. What is delivered to whom the grant is reserved for is then
delivered once.
-/

namespace FastKit
open Transaction

/-- The grant is of a benefit granted once per user, by its catalogue id. -/
def OncePerUser (s : Store) (g : BenefitGrant) (benefitId : ℕ) : Prop :=
  ∃ b ∈ s.benefits, b.id = g.subscriptionBenefitId ∧ b.benefitId = benefitId ∧
    b.cadence = .oncePerUser

/-- The user was credited or handed a benefit granted once per user by the grant. -/
structure Received (s : Store) (userId benefitId : ℕ) (g : BenefitGrant) : Prop where
  grant : g ∈ s.grants
  once : OncePerUser s g benefitId
  got : (∃ e ∈ s.transactions, e.userId = userId ∧ e.benefitGrantId = some g.id) ∨
    ∃ p ∈ s.userProducts, p.userId = userId ∧ p.benefitGrantId = some g.id

/-- Of every catalogue benefit granted once per user, each user was credited and handed what
one grant delivers, and that once. -/
def ReceivedOnce (s : Store) : Prop :=
  ∀ g ∈ s.grants, ∀ g' ∈ s.grants, ∀ b ∈ s.benefits, ∀ b' ∈ s.benefits,
    b.id = g.subscriptionBenefitId → b'.id = g'.subscriptionBenefitId →
    b.benefitId = b'.benefitId → b.cadence = .oncePerUser → b'.cadence = .oncePerUser →
    (∀ e ∈ s.transactions, ∀ e' ∈ s.transactions, e.benefitGrantId = some g.id →
      e'.benefitGrantId = some g'.id → e.userId = e'.userId → e = e') ∧
    (∀ p ∈ s.userProducts, ∀ p' ∈ s.userProducts, p.benefitGrantId = some g.id →
      p'.benefitGrantId = some g'.id → p.userId = p'.userId → p.id = p'.id) ∧
    ∀ e ∈ s.transactions, ∀ p ∈ s.userProducts, e.benefitGrantId = some g.id →
      p.benefitGrantId = some g'.id → e.userId = p.userId → g.id = g'.id

instance (s : Store) : Decidable (ReceivedOnce s) := by
  unfold ReceivedOnce
  infer_instance

/-- What the turn delivers for a grant of a benefit granted once per user goes to whom the
grant is reserved for. -/
def ToReserved (s t : Store) : Prop :=
  ∀ g ∈ t.grants, ∀ b ∈ t.benefits, b.id = g.subscriptionBenefitId → b.cadence = .oncePerUser →
    (∀ e ∈ t.transactions, s.transactions.Lacks e → e.benefitGrantId = some g.id →
      g.userBenefitKey = some (e.userId, b.benefitId)) ∧
    ∀ p ∈ t.userProducts, s.userProducts.Lacks p → p.benefitGrantId = some g.id →
      g.userBenefitKey = some (p.userId, b.benefitId)

instance (s t : Store) : Decidable (ToReserved s t) := by
  unfold ToReserved
  infer_instance

/-- Whoever received a benefit received it by one grant, and no other grant reserves it. -/
structure Reserving (s : Store) : Prop where
  reserved : ∀ {userId benefitId : ℕ} {g g' : BenefitGrant}, Received s userId benefitId g →
    g' ∈ s.grants → g'.userBenefitKey = some (userId, benefitId) → g'.id = g.id
  one : ∀ (userId benefitId : ℕ) {g g' : BenefitGrant}, Received s userId benefitId g →
    Received s userId benefitId g' → g'.id = g.id

variable {W : Scope} {s t : Store} {userId benefitId : ℕ} {g : BenefitGrant}

/-- The unique index of the reservations. -/
theorem eq_of_reservation {g' : BenefitGrant} {key : UserBenefitKey} (hg : g ∈ s.grants)
    (hg' : g' ∈ s.grants) (hk : g.userBenefitKey = some key)
    (hk' : g'.userBenefitKey = some key) : g = g' := by
  refine Table.eq_of_key (k := GrantIndex.userBenefit key) hg hg' ?_ ?_
  · simp [Keyed.keys, hk]
  · simp [Keyed.keys, hk']

theorem Received.path (h : Received s userId benefitId g) (c : Path W s t) :
    ∃ g' ∈ t.grants, g'.id = g.id ∧ Received t userId benefitId g' := by
  obtain ⟨g', hg', hn⟩ := KnownGrant.path ⟨g, h.grant, rfl⟩ c
  have hid : g'.id = g.id := congrArg (·.1) hn
  have hsub : g'.subscriptionBenefitId = g.subscriptionBenefitId := congrArg (·.2.1) hn
  refine ⟨g', hg', hid, hg', ?_, ?_⟩
  · obtain ⟨b, hb, hbg, hbid, honce⟩ := h.once
    obtain ⟨b', hb', hp⟩ := Known.path ⟨b, hb, rfl⟩ c
    have h1 : b'.id = b.id := congrArg (·.id) hp
    have h2 : b'.benefitId = b.benefitId := congrArg (·.benefitId) hp
    have h3 : b'.cadence = b.cadence := congrArg (·.cadence) hp
    exact ⟨b', hb', by rw [h1, hbg, hsub], by rw [h2, hbid], by rw [h3, honce]⟩
  · rw [hid]
    rcases h.got with ⟨e, he, hu, heg⟩ | ⟨p, hp, hu, hpg⟩
    · exact .inl ⟨e, c.transaction_kept he, hu, heg⟩
    · exact .inr ⟨p, c.userProduct_kept hp, hu, hpg⟩

/-- Who received a benefit is found to hold it. -/
theorem Received.alreadyHeld (h : Received s userId benefitId g) (key : UserBenefitKey) :
    alreadyHeld userId benefitId key s = true := by
  obtain ⟨b, hb, hbg, hbid, -⟩ := h.once
  have hof : s.grants.rows.any (fun g₀ => some g.id == some g₀.id &&
      s.benefits.rows.any (fun b => b.id == g₀.subscriptionBenefitId && b.benefitId == benefitId))
      = true := by
    refine List.any_eq_true.mpr ⟨g, h.grant, ?_⟩
    rw [beq_self_eq_true, Bool.true_and]
    exact List.any_eq_true.mpr ⟨b, hb, by simp [hbg, hbid]⟩
  rw [FastKit.alreadyHeld, Bool.or_eq_true, Bool.or_eq_true]
  rcases h.got with ⟨e, he, hu, heg⟩ | ⟨p, hp, hu, hpg⟩
  · exact .inl (.inr (List.any_eq_true.mpr ⟨e, he, by rw [heg, hu, beq_self_eq_true, Bool.true_and]; exact hof⟩))
  · exact .inr (List.any_eq_true.mpr ⟨p, hp, by rw [hpg, hu, beq_self_eq_true, Bool.true_and]; exact hof⟩)

/-- Once a user received a benefit no grant but the one it came by reserves it. -/
theorem Received.reserved_path (h : Received s userId benefitId g)
    (hr : ∀ g' ∈ s.grants, g'.userBenefitKey = some (userId, benefitId) → g'.id = g.id)
    (c : Path W s t) :
    ∀ g' ∈ t.grants, g'.userBenefitKey = some (userId, benefitId) → g'.id = g.id := by
  induction c with
  | refl => exact hr
  | tail past c ih =>
    intro g' hg' hk
    rcases c.grant_cases hg' with ⟨g₀, hg₀, hn, hkey⟩ | ⟨opened, -, -⟩
    · have hid : g'.id = g₀.id := congrArg (·.1) hn
      rcases hkey with hkey | hkey
      · exact hid.trans (ih g₀ hg₀ (hkey.symm.trans hk))
      · rw [hk] at hkey; cases hkey
    · -- a grant that reserves the benefit is opened only where the user does not hold it
      obtain ⟨b, hb, -, -, hres⟩ := opened.benefit
      obtain ⟨hbid, -, hnot⟩ := hres _ hk
      obtain ⟨g₁, -, -, hrec⟩ := h.path past
      rw [← hbid, hrec.alreadyHeld] at hnot
      cases hnot

/-- What a user has of a benefit it had before, or it was delivered to whom the grant is
reserved for. -/
theorem Received.cases (hs : Sound s) (c : Path W s t) (ok : ToReserved s t)
    (h : Received t userId benefitId g) :
    (∃ g₀ ∈ s.grants, g₀.id = g.id ∧ Received s userId benefitId g₀) ∨
      g.userBenefitKey = some (userId, benefitId) := by
  obtain ⟨b, hb, hbg, hbid, honce⟩ := h.once
  -- a delivery that was there was made for a grant and a benefit that were there
  have hback : ∀ g₀ ∈ s.grants, g₀.id = g.id → (∃ b₀ ∈ s.benefits, b₀.id = g₀.subscriptionBenefitId) →
      OncePerUser s g₀ benefitId := by
    rintro g₀ hg₀ hid ⟨b₀, hb₀, hb₀g⟩
    obtain ⟨b', hb', hp⟩ := Known.path ⟨b₀, hb₀, rfl⟩ c
    have h1 : b'.id = b₀.id := congrArg (·.id) hp
    have h2 : b'.benefitId = b₀.benefitId := congrArg (·.benefitId) hp
    have h3 : b'.cadence = b₀.cadence := congrArg (·.cadence) hp
    have hsub : g.subscriptionBenefitId = g₀.subscriptionBenefitId :=
      congrArg (·.2.1) (grant_name c hg₀ h.grant hid.symm)
    obtain rfl : b = b' := Table.eq_of_id hb hb' (by
      change b.id = b'.id
      rw [hbg, hsub, h1, hb₀g])
    exact ⟨b₀, hb₀, hb₀g, h2 ▸ hbid, h3 ▸ honce⟩
  rcases h.got with ⟨e, he, hu, heg⟩ | ⟨p, hp, hu, hpg⟩
  · by_cases hnew : s.transactions.Lacks e
    · exact .inr (by rw [(ok g h.grant b hb hbg honce).1 e he hnew heg, hu, hbid])
    · unfold Table.Lacks at hnew
      push Not at hnew
      obtain ⟨e₀, he₀, hid⟩ := hnew
      obtain rfl : e₀ = e := Table.eq_of_id (c.transaction_kept he₀) he hid
      obtain ⟨g₀, hg₀, b₀, hb₀, hgid, hb₀g, -⟩ := hs.paid e₀ he₀ g.id heg
      exact .inl ⟨g₀, hg₀, hgid, hg₀, hback g₀ hg₀ hgid ⟨b₀, hb₀, hb₀g⟩,
        .inl ⟨e₀, he₀, hu, by rw [heg, hgid]⟩⟩
  · by_cases hnew : s.userProducts.Lacks p
    · exact .inr (by rw [(ok g h.grant b hb hbg honce).2 p hp hnew hpg, hu, hbid])
    · unfold Table.Lacks at hnew
      push Not at hnew
      obtain ⟨p₀, hp₀, hid⟩ := hnew
      obtain rfl : p₀ = p := Table.eq_of_id (c.userProduct_kept hp₀) hp hid
      obtain ⟨g₀, hg₀, b₀, hb₀, hgid, hb₀g, -⟩ := hs.handed p₀ hp₀ g.id hpg
      exact .inl ⟨g₀, hg₀, hgid, hg₀, hback g₀ hg₀ hgid ⟨b₀, hb₀, hb₀g⟩,
        .inr ⟨p₀, hp₀, hu, by rw [hpg, hgid]⟩⟩

theorem Reserving.path (h : Reserving s) (hs : Sound s) (c : Path W s t) (ok : ToReserved s t) :
    Reserving t := by
  have hres : ∀ {userId benefitId : ℕ} {g g' : BenefitGrant}, Received t userId benefitId g →
      g' ∈ t.grants → g'.userBenefitKey = some (userId, benefitId) → g'.id = g.id := by
    intro userId benefitId g g' hr hg' hk
    rcases hr.cases hs c ok with ⟨g₀, -, hid, hr₀⟩ | hkey
    · rw [← hid]
      exact hr₀.reserved_path (fun g'' hg'' hk'' => h.reserved hr₀ hg'' hk'') c g' hg' hk
    · rw [eq_of_reservation hr.grant hg' hkey hk]
  refine ⟨hres, fun userId benefitId g g' hr hr' => ?_⟩
  rcases hr'.cases hs c ok with ⟨g₀', -, hid', hr₀'⟩ | hkey'
  · rcases hr.cases hs c ok with ⟨g₀, -, hid, hr₀⟩ | hkey
    · rw [← hid, ← hid']
      exact h.one _ _ hr₀ hr₀'
    · exact (hres hr' hr.grant hkey).symm
  · exact hres hr hr'.grant hkey'

theorem Reserving.receivedOnce (h : Reserving s) (hs : Sound s) : ReceivedOnce s := by
  intro g hg g' hg' b hb b' hb' hbg hbg' hsame honce honce'
  have hone : ∀ userId, ((∃ e ∈ s.transactions, e.userId = userId ∧ e.benefitGrantId = some g.id) ∨
        ∃ p ∈ s.userProducts, p.userId = userId ∧ p.benefitGrantId = some g.id) →
      ((∃ e ∈ s.transactions, e.userId = userId ∧ e.benefitGrantId = some g'.id) ∨
        ∃ p ∈ s.userProducts, p.userId = userId ∧ p.benefitGrantId = some g'.id) →
      g.id = g'.id := fun userId hgot hgot' =>
    h.one userId b.benefitId ⟨hg', ⟨b', hb', hbg', hsame.symm, honce'⟩, hgot'⟩
      ⟨hg, ⟨b, hb, hbg, rfl, honce⟩, hgot⟩
  refine ⟨?_, ?_, ?_⟩
  · intro e he e' he' heg heg' hu
    have hid := hone e.userId (.inl ⟨e, he, rfl, heg⟩) (.inl ⟨e', he', hu.symm, heg'⟩)
    exact hs.movement_unique hg he he' heg (by rw [heg', hid])
  · intro p hp p' hp' hpg hpg' hu
    have hid := hone p.userId (.inr ⟨p, hp, rfl, hpg⟩) (.inr ⟨p', hp', hu.symm, hpg'⟩)
    rw [hs.product_unique hg hp hp' hpg (by rw [hpg', hid]) hu]
  · intro e he p hp heg hpg hu
    exact hone e.userId (.inl ⟨e, he, rfl, heg⟩) (.inr ⟨p, hp, hu.symm, hpg⟩)

/-- In every run whose turns deliver a benefit granted once per user to whom its grant is
reserved for, every user receives it once. -/
theorem received_once {calls : List Call} {s : Store} (hs : Undelivered s)
    {trace : List (Turn Store)} {q : Sessions}
    (run : Pool.Run (fun q _ r => ToReserved q.store r.store) (sessions calls s) trace q) :
    ReceivedOnce q.store := by
  have h : Sound q.store ∧ Reserving q.store := by
    refine run_preserves (I := fun s => Sound s ∧ Reserving s) ?_ run ⟨hs.sound, ?_⟩
    · intro q i r ok c h
      exact ⟨h.1.path c, h.2.path h.1 c ok⟩
    · exact ⟨fun hr => absurd hr.grant hs.no_grant, fun _ _ _ _ hr => absurd hr.grant hs.no_grant⟩
  exact h.2.receivedOnce h.1

/-- Two accounts that receive the benefit each. -/
theorem received_once_each : ∃ q : Sessions, q.store.transactions.rows.length = 2 ∧
    ReceivedOnce q.store := by
  obtain ⟨trace, q, run, hq⟩ := Pool.exists_run (fun q _ r => ToReserved q.store r.store)
    (sessions [.apply Shop.integration Shop.friend [Shop.upgrade] false none,
      .apply Shop.integration Shop.buyer [Shop.purchase] false none]
      (Shop.new (Shop.catalog [Shop.welcome])))
    (List.replicate 6 0 ++ List.replicate 6 1)
    (fun q => q.store.transactions.rows.length = 2) (by decide +kernel)
  exact ⟨q, hq, received_once ⟨rfl, rfl, rfl⟩ run⟩

/-- The node that opens the grant of a purchase dies before it delivers, and the node that
hands the purchase over to a friend, who has the benefit already, dies before it opens the
cycle that is the friend's. A later word finds the cycle before, and the retry pass credits
the friend with the grant that is reserved for the buyer. -/
theorem received_twice : ¬∀ (calls : List Call) (s : Store) (trace : List (Turn Store))
    (q : Sessions), Undelivered s → Pool.Run (fun _ _ _ => True) (sessions calls s) trace q →
    ReceivedOnce q.store := by
  intro h
  obtain ⟨trace, q, run, hq⟩ := Pool.exists_run (fun _ _ _ => True)
    (sessions [.apply Shop.integration Shop.friend [Shop.upgrade] false none,
      .apply Shop.integration Shop.buyer [Shop.purchase] false none,
      .apply Shop.integration Shop.friend [Shop.purchase] false none,
      .apply Shop.integration Shop.friend [Shop.renewal] false none,
      .tick (31 * 60 * Calendar.second), .retryFailedGrants]
      (Shop.new (Shop.catalog [Shop.welcome])))
    (List.replicate 6 0 ++ List.replicate 2 1 ++ [2] ++ List.replicate 3 3 ++ [4] ++
      List.replicate 3 5)
    (fun q => ¬ReceivedOnce q.store) (by decide +kernel)
  exact hq (h _ _ trace q ⟨rfl, rfl, rfl⟩ run)

end FastKit
