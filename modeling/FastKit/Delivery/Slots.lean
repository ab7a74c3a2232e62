import FastKit.Delivery.Invariants

/-! # One slot, two doors

The activation and the due pass name the first cycle of a recurring benefit alike, so the
grant key settles who pays a slot of it. In a cycle opened again each door has names of
its own, and a slot is paid once where no grant is opened for a slot the other door named.
-/

namespace FastKit
open Transaction

/-- Each slot of each cycle of a recurring credit benefit was credited by one movement at
most. -/
def CreditedOnce (s : Store) : Prop :=
  ∀ b ∈ s.benefits, b.cadence.interval.isSome = true → b.benefitType = .credit →
    ∀ g ∈ s.grants, ∀ g' ∈ s.grants, g.subscriptionBenefitId = b.id →
      g'.subscriptionBenefitId = b.id → g.cycle = g'.cycle → g.scheduledAt = g'.scheduledAt →
      ∀ e ∈ s.transactions, ∀ e' ∈ s.transactions,
        e.benefitGrantId = some g.id → e'.benefitGrantId = some g'.id → e = e'

instance (s : Store) : Decidable (CreditedOnce s) := by
  unfold CreditedOnce
  infer_instance

/-- Two grants of one slot of a recurring credit benefit in a cycle opened again, the one named
by the cycle and the other by the date of the slot. -/
def BothDoors (s : Store) (g g' : BenefitGrant) : Prop :=
  (∃ b ∈ s.benefits, b.id = g.subscriptionBenefitId ∧ b.cadence.interval.isSome = true ∧
    b.benefitType = .credit) ∧
    g'.subscriptionBenefitId = g.subscriptionBenefitId ∧ 0 < g.cycle ∧ g'.cycle = g.cycle ∧
    g'.scheduledAt = g.scheduledAt ∧ g.cycleKey = .activation g.cycle ∧
    g'.cycleKey = cycleKey g'.scheduledAt

/-- The turn opens no grant for a slot of a cycle opened again that the other door named. -/
def OneDoor (s t : Store) : Prop :=
  ∀ g ∈ t.grants, ∀ g' ∈ t.grants, s.grants.Lacks g ∨ s.grants.Lacks g' → ¬BothDoors t g g'

/-- No slot of a cycle opened again has a grant of both doors. -/
def Doors (s : Store) : Prop := ∀ g ∈ s.grants, ∀ g' ∈ s.grants, ¬BothDoors s g g'

variable {s t : Store}

theorem BothDoors.back (c : Path .any s t) (h : Sound s) {g g' g₀ g₀' : BenefitGrant}
    (hg₀ : g₀ ∈ s.grants) (hn : g.name = g₀.name) (hn' : g'.name = g₀'.name)
    (hb : BothDoors t g g') : BothDoors s g₀ g₀' := by
  have h1 : g.subscriptionBenefitId = g₀.subscriptionBenefitId := congrArg (·.2.1) hn
  have h2 : g.cycle = g₀.cycle := congrArg (·.2.2.2.1) hn
  have h3 : g.cycleKey = g₀.cycleKey := congrArg (·.2.2.2.2.1) hn
  have h4 : g.scheduledAt = g₀.scheduledAt := congrArg (·.2.2.2.2.2) hn
  have h1' : g'.subscriptionBenefitId = g₀'.subscriptionBenefitId := congrArg (·.2.1) hn'
  have h2' : g'.cycle = g₀'.cycle := congrArg (·.2.2.2.1) hn'
  have h3' : g'.cycleKey = g₀'.cycleKey := congrArg (·.2.2.2.2.1) hn'
  have h4' : g'.scheduledAt = g₀'.scheduledAt := congrArg (·.2.2.2.2.2) hn'
  obtain ⟨⟨b, hb, hid, hr, hcredit⟩, hsame⟩ := hb
  obtain ⟨-, b₀, hb₀, hid₀, -⟩ := h.named g₀ hg₀
  obtain ⟨b', hb', hp⟩ := Known.path ⟨b₀, hb₀, rfl⟩ c
  have hid' : b'.id = b₀.id := congrArg (·.id) hp
  have hcad : b'.cadence = b₀.cadence := congrArg (·.cadence) hp
  have htype : b'.benefitType = b₀.benefitType := congrArg (·.benefitType) hp
  obtain rfl : b = b' := Table.eq_of_id hb hb' (by
    change b.id = b'.id
    rw [hid, hid', hid₀, h1])
  rw [h1, h1', h2, h2', h3, h3', h4, h4'] at hsame
  exact ⟨⟨b₀, hb₀, hid₀, hcad ▸ hr, htype ▸ hcredit⟩, hsame⟩

instance (s t : Store) : Decidable (OneDoor s t) := by
  unfold OneDoor BothDoors
  infer_instance

/-- What a turn through one door keeps. -/
theorem Doors.path (h : Doors s) (hs : Sound s) (c : Path .any s t) (ok : OneDoor s t) :
    Doors t := by
  intro g hg g' hg' hb
  by_cases hnew : s.grants.Lacks g ∨ s.grants.Lacks g'
  · exact ok g hg g' hg' hnew hb
  · rw [not_or] at hnew
    obtain ⟨hold, hold'⟩ := hnew
    unfold Table.Lacks at hold hold'
    push Not at hold hold'
    obtain ⟨g₀, hg₀, hid⟩ := hold
    obtain ⟨g₀', hg₀', hid'⟩ := hold'
    exact h g₀ hg₀ g₀' hg₀' (hb.back c hs hg₀ (grant_name c hg₀ hg hid.symm)
      (grant_name c hg₀' hg' hid'.symm))

/-- The doors of a recurring credit benefit name a slot of a cycle alike, unless they are both
there in a cycle opened again. -/
theorem Doors.cycleKey_eq (h : Doors s) (hs : Sound s) {b : SubscriptionBenefit}
    (hb : b ∈ s.benefits) (hr : b.cadence.interval.isSome = true)
    (hcredit : b.benefitType = .credit) {g g' : BenefitGrant} (hg : g ∈ s.grants)
    (hg' : g' ∈ s.grants) (hgb : g.subscriptionBenefitId = b.id)
    (hgb' : g'.subscriptionBenefitId = b.id) (hc : g.cycle = g'.cycle)
    (ha : g.scheduledAt = g'.scheduledAt) : g.cycleKey = g'.cycleKey := by
  have hn := hs.benefit_named hg hb hgb.symm
  have hn' := hs.benefit_named hg' hb hgb'.symm
  rw [Named, if_pos hr] at hn hn'
  rcases hn with hn | ⟨hpos, hn⟩ <;> rcases hn' with hn' | ⟨hpos', hn'⟩
  · rw [hn, hn', ha]
  · exact absurd ⟨⟨b, hb, hgb'.symm, hr, hcredit⟩, hgb.trans hgb'.symm, hpos', hc, ha, hn', hn⟩
      (h g' hg' g hg)
  · exact absurd ⟨⟨b, hb, hgb.symm, hr, hcredit⟩, hgb'.trans hgb.symm, hpos, hc.symm, ha.symm, hn, hn'⟩
      (h g hg g' hg')
  · rw [hn, hn', hc]

theorem Doors.creditedOnce (h : Doors s) (hs : Sound s) : CreditedOnce s := by
  intro b hb hr hcredit g hg g' hg' hgb hgb' hc ha e he e' he' heg heg'
  have hkey : g.grantKey = g'.grantKey := by
    rw [(hs.named g hg).1, (hs.named g' hg').1, hgb, hgb',
      h.cycleKey_eq hs hb hr hcredit hg hg' hgb hgb' hc ha]
  -- the grant key is unique, so both movements are of one grant
  obtain rfl : g = g' := Table.eq_of_key hg hg' (List.mem_cons_self ..)
    (by rw [hkey]; exact List.mem_cons_self ..)
  exact hs.movement_unique hg he he' heg heg'

/-- In every run of which no turn opens a grant for a slot of a cycle opened again that the
other door named, every slot of every cycle is credited once. -/
theorem credited_once {calls : List Call} {s : Store} (hs : Undelivered s)
    {trace : List (Turn Store)} {q : Sessions}
    (run : Pool.Run (fun q _ r => OneDoor q.store r.store) (sessions calls s) trace q) :
    CreditedOnce q.store := by
  have h : Sound q.store ∧ Doors q.store := by
    refine run_preserves (I := fun s => Sound s ∧ Doors s) ?_ run
      ⟨hs.sound, fun g hg => absurd hg hs.no_grant⟩
    intro q i r ok c h
    exact ⟨h.1.path c, h.2.path h.1 c ok⟩
  exact h.2.creditedOnce h.1

/-- A purchase, and the month after it paid by the due pass. -/
theorem credited_once_month : ∃ q : Sessions, q.store.transactions.rows.length = 2 ∧
    CreditedOnce q.store := by
  obtain ⟨trace, q, run, hq⟩ := Pool.exists_run (fun q _ r => OneDoor q.store r.store)
    (sessions [.apply Shop.integration Shop.buyer [Shop.purchase] false none,
      .tick (31 * Calendar.day), .processDue] (Shop.new (Shop.catalog [Shop.credits 100])))
    (List.replicate 6 0 ++ [1] ++ List.replicate 4 2)
    (fun q => q.store.transactions.rows.length = 2) (by decide +kernel)
  exact ⟨q, hq, credited_once ⟨rfl, rfl, rfl⟩ run⟩

/-- An operator opens a new cycle as the next slot comes due. A due pass pays the slot by its
date, and the activation, which kept the benefit as it was before, pays it by the cycle. -/
theorem slot_credited_twice : ¬∀ (calls : List Call) (s : Store) (trace : List (Turn Store))
    (q : Sessions), Undelivered s → Pool.Run (fun _ _ _ => True) (sessions calls s) trace q →
    CreditedOnce q.store := by
  intro h
  obtain ⟨trace, q, run, hq⟩ := Pool.exists_run (fun _ _ _ => True)
    (sessions [.apply Shop.integration Shop.buyer [Shop.purchase] false none,
      .tick (31 * Calendar.day), .openNewCycle 0 1, .processDue]
      (Shop.new (Shop.catalog [Shop.credits 100])))
    (List.replicate 6 0 ++ [1] ++ List.replicate 3 2 ++ List.replicate 4 3 ++ List.replicate 4 2)
    (fun q => ¬CreditedOnce q.store) (by decide +kernel)
  exact hq (h _ _ trace q ⟨rfl, rfl, rfl⟩ run)

end FastKit
