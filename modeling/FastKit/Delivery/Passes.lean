import FastKit.Delivery.Cycles

/-! # The passes keep to the changes

Deliveries, activations, and the three passes of the delivery service, each assembled
from the cycle they share.
-/

namespace FastKit
open Transaction Transaction.Program

namespace Setting
variable {α : Type} {S : Setting} {g m : Memory} {b v : Store}

/-- A grant of a benefit as the session has both. -/
structure GrantOf (benefit : SubscriptionBenefit) (grant : BenefitGrant) (v : Store) : Prop where
  known : Known benefit v
  written : KnownGrant grant v
  same : grant.subscriptionBenefitId = benefit.id

theorem GrantOf.path {W : Scope} {benefit : SubscriptionBenefit}
    {grant : BenefitGrant} {s t : Store} (h : GrantOf benefit grant s) (c : Path W s t) :
    GrantOf benefit grant t := ⟨h.known.path c, h.written.path c, h.same⟩

theorem GrantOf.paid {benefit : SubscriptionBenefit} {grant : BenefitGrant}
    (h : GrantOf benefit grant v) {key : IdempotencyKey}
    (hk : (key = .grant grant.grantKey ∧ benefit.benefitType = .credit) ∨
      (key = .product grant.grantKey ∧ benefit.benefitType = .product)) :
    Paid v (some grant.id) key := by
  obtain ⟨row, hrow, hp⟩ := h.known
  obtain ⟨g, hg, hn⟩ := h.written
  have hg1 : g.id = grant.id := congrArg (·.1) hn
  have hg2 : g.subscriptionBenefitId = grant.subscriptionBenefitId := congrArg (·.2.1) hn
  have hg3 : g.grantKey = grant.grantKey := congrArg (·.2.2.1) hn
  have hp1 : row.id = benefit.id := congrArg (·.id) hp
  have hp2 : row.benefitType = benefit.benefitType := congrArg (·.benefitType) hp
  rintro id hid
  refine ⟨g, hg, row, hrow, hg1.trans (Option.some.inj hid), ?_, ?_⟩
  · rw [hp1, hg2, h.same]
  · rw [hg3, hp2]; exact hk

theorem GrantOf.handedOver {benefit : SubscriptionBenefit} {grant : BenefitGrant}
    (h : GrantOf benefit grant v) {productId : ℕ} (ht : benefit.benefitType = .product)
    (hq : benefit.productId = some productId) : HandedOver v (some grant.id) productId := by
  obtain ⟨row, hrow, hp⟩ := h.known
  obtain ⟨g, hg, hn⟩ := h.written
  have hg1 : g.id = grant.id := congrArg (·.1) hn
  have hg2 : g.subscriptionBenefitId = grant.subscriptionBenefitId := congrArg (·.2.1) hn
  have hp1 : row.id = benefit.id := congrArg (·.id) hp
  have hp2 : row.benefitType = benefit.benefitType := congrArg (·.benefitType) hp
  have hp3 : row.productId = benefit.productId := congrArg (·.productId) hp
  rintro id hid
  refine ⟨g, hg, row, hrow, hg1.trans (Option.some.inj hid), ?_, hp2.trans ht, hp3.trans hq⟩
  rw [hp1, hg2, h.same]

/-- What a delivery decides on: whether the subscription is eligible, the benefit is active in
the cycle of the grant, and the policy of the plan, as the session has it, allows its type. -/
def owed (m : Memory) (s : Store) (grant : BenefitGrant) : Bool :=
  (s.benefits.get grant.subscriptionBenefitId).any (fun benefit =>
    benefit.status == .active && benefit.cycle == grant.cycle &&
      (s.subscriptions.get benefit.subscriptionId).any (fun subscription =>
        subscription.isEligibleForBenefits && (heldPlan m s subscription.planId).any (fun plan =>
          (benefitPolicyOf subscription plan).allows benefit.benefitType)))

/-- What the scopes of a delivery have to allow: to drop a grant that is not owed, to hand over
for one that is, to close one whose product is held already, and to complete it. -/
structure Handling (S : Setting) (benefit : SubscriptionBenefit) (grant : BenefitGrant)
    (g m : Memory) (b : Store) : Prop where
  drop : owed m b grant = false → ∀ r ∈ b.grants, r.id = grant.id → ∀ y, Recast r y →
    y.status = .skipped → (S.scope g b).mark r y
  deliver : owed m b grant = true → (S.scope g b).deliver grant.id
  held : benefit.benefitType = .product → ∀ r ∈ b.grants, r.id = grant.id → ∀ y, Recast r y →
    y.status = .skipped → (S.scope g b).mark r y
  complete : ∀ {g m b v}, S.Inside g m b v → ∀ r ∈ v.grants, r.id = grant.id → ∀ y, Recast r y →
    y.status = .completed ∨ y.status = r.status → (S.scope g b).mark r y

variable {benefit : SubscriptionBenefit} {grant : BenefitGrant}

theorem completed_keeps {f : BenefitGrant → BenefitGrant} (h : S.Inside g m b v)
    (hc : ∀ {g m b v}, S.Inside g m b v → ∀ r ∈ v.grants, r.id = grant.id → ∀ y, Recast r y →
      y.status = .completed ∨ y.status = r.status → (S.scope g b).mark r y)
    (hf : ∀ r, Recast r (f r)) (hs : ∀ r, (f r).status = .completed ∨ (f r).status = r.status) :
    (writeGrant grant.id f).Meets S.contract S.Kept g m b v :=
  Within.kept (writeGrant_within _ (fun r => (hf r).marks) h
    (fun r hr hid => hc h r hr hid _ (hf r) (hs r)))

theorem recast_rfl (r : BenefitGrant) (status : BenefitGrantStatus) (quantity : ℤ)
    (result : GrantResult) : Recast r { r with
      status := status, grantedQuantity := quantity, result := result } :=
  ⟨⟨rfl, .inl rfl⟩, rfl, rfl⟩

theorem deliverAccess_keeps (h : S.Inside g m b v) {g₀ m₀ : Memory} {b₀ : Store}
    (hh : S.Handling benefit grant g₀ m₀ b₀) :
    (deliverAccess benefit grant).Meets S.contract S.Kept g m b v := by
  refine meets_bind_reads (query_reads _ h) kept_error fun o m h _ => ?_
  refine meets_bind_reads (require_reads (by simp) o h) kept_error fun entitlement m h _ => ?_
  refine meets_bind_keeps (writeEntitlements_keeps g m b v h) fun _ g m b v h => ?_
  exact completed_keeps h hh.complete (fun r => recast_rfl r _ _ _) (fun _ => .inl rfl)

theorem deliverCredit_keeps (h : S.Inside g m b v) (hg : GrantOf benefit grant v)
    {m₀ : Memory} (hh : S.Handling benefit grant g m₀ b) (ho : owed m₀ b grant = true)
    (ht : benefit.benefitType = .credit) :
    (deliverCredit benefit grant).Meets S.contract S.Kept g m b v := by
  refine meets_bind_reads (subscriptionOf_reads _ h) kept_error fun subscription m h _ => ?_
  refine meets_bind_reads (planOf_reads _ h) kept_error fun plan m h _ => ?_
  refine meets_bind_reads (require_reads (by simp) _ h) kept_error fun currency m h _ => ?_
  have hmoved : S.Moved g b v (.grant grant.grantKey) (some grant.id) :=
    ⟨hg.paid (.inl ⟨rfl, ht⟩), fun id hid => Option.some.inj hid ▸ hh.deliver ho, by
      intro reference hk; cases hk⟩
  refine meets_bind_keeps (move_keeps h hmoved) fun _ g m b v h => ?_
  exact completed_keeps h hh.complete (fun r => recast_rfl r _ _ _) (fun _ => .inl rfl)

theorem deliverProduct_keeps (h : S.Inside g m b v) (hg : GrantOf benefit grant v)
    {m₀ : Memory} (hh : S.Handling benefit grant g m₀ b) (ho : owed m₀ b grant = true)
    (hv : v.grants = b.grants) (ht : benefit.benefitType = .product) :
    (deliverProduct benefit grant).Meets S.contract S.Kept g m b v := by
  refine meets_bind_reads (subscriptionOf_reads _ h) kept_error fun subscription m h _ => ?_
  refine meets_bind_reads (require_reads (by simp) _ h) kept_error fun product m h hq => ?_
  have hmoved : S.Moved g b v (.product grant.grantKey) (some grant.id) :=
    ⟨hg.paid (.inr ⟨rfl, ht⟩), fun id hid => Option.some.inj hid ▸ hh.deliver ho, by
      intro reference hk; cases hk⟩
  refine (commerceGrant_meets h hmoved (hg.handedOver ht hq.1)).bind ?_ (fun _ _ _ _ h => h)
  rintro g' ⟨held, granted⟩ m' b' v' ⟨hin, hsame⟩
  dsimp only
  split_ifs with hgr
  · exact completed_keeps hin hh.complete (fun r => recast_rfl r _ _ _) (fun _ => .inl rfl)
  · obtain ⟨rfl, rfl, hgrants⟩ := hsame (by simpa using hgr)
    refine Within.kept (writeGrant_within _ (fun r => ⟨rfl, .inl rfl⟩) hin (fun r hr hid => ?_))
    exact hh.held ht r (hv ▸ hgrants ▸ hr) hid _ ⟨⟨rfl, .inl rfl⟩, rfl, rfl⟩ rfl

theorem handlers_keeps (h : S.Inside g m b v) (hg : GrantOf benefit grant v)
    {m₀ : Memory} (hh : S.Handling benefit grant g m₀ b) (ho : owed m₀ b grant = true)
    (hv : v.grants = b.grants) :
    (handlers benefit.benefitType benefit grant).Meets S.contract S.Kept g m b v := by
  cases ht : benefit.benefitType with
  | access => exact deliverAccess_keeps h hh
  | credit => exact deliverCredit_keeps h hg hh ho ht
  | product => exact deliverProduct_keeps h hg hh ho hv ht

structure Fails (f : BenefitGrant → BenefitGrant) : Prop where
  recast : ∀ r, Recast r (f r)
  failed : ∀ r, (f r).status = .failed

/-- Whatever the handlers raise, a delivery closes its grant, or starts over and fails it. -/
theorem deliver_meets {post : Memory → Except Fault (Unit × Memory) → Store → Store → Prop}
    (h : S.Inside g m b b) (hg : GrantOf benefit grant b)
    (hh : ∀ row, row.benefitType = benefit.benefitType → S.Handling row grant g m b)
    (hok : ∀ g m b v, S.Inside g m b v → post g (.ok ((), m)) b v)
    (hfail : ∀ g m b f t, S.Inside g m b b → Fails f → b.grants.alter (·.id == grant.id) f = some t →
      post g (.ok ((), m)) b { b with grants := t })
    (herr : ∀ g e b v, S.Failed g e b → post g (.error e) b v) :
    (deliver benefit grant).Meets S.contract post g m b b := by
  refine meets_attempt_rollback ?_ h (fun a g m b v h => hok g m b v h) fun e g b _ h => ?_
  · refine meets_bind_reads (holdSubscription_reads _ h) kept_error fun sub m₁ h hs => ?_
    obtain ⟨hsub, rfl⟩ := hs
    refine meets_bind_reads (refreshBenefit_reads _ h) kept_error fun row m₂ h hrow => ?_
    obtain ⟨hrow, hid, rfl⟩ := hrow
    have hkind : row.promise = benefit.promise := by
      obtain ⟨row', hrow', hp⟩ := hg.known
      obtain rfl : row = row' := Table.eq_of_id hrow hrow' (hid.trans (congrArg (·.id) hp).symm)
      exact hp
    have hsid : row.subscriptionId = benefit.subscriptionId := congrArg (·.subscriptionId) hkind
    have htype : row.benefitType = benefit.benefitType := congrArg (·.benefitType) hkind
    have hrow' : GrantOf row grant b := ⟨⟨row, hrow, rfl⟩, hg.written, by rw [hid, hg.same]⟩
    have hget : b.benefits.get grant.subscriptionBenefitId = some row := by
      rw [hg.same, ← hid]
      exact Table.get_of_mem hrow
    have hfound : ((m.load sub).keepBenefit row).find row.subscriptionId = some sub := by
      rw [hsid]
      exact find_load (Table.id_of_get hsub)
    have howed : ∀ owed' : Bool, owed' = (row.status == .active && row.cycle == grant.cycle &&
        (sub.isEligibleForBenefits && (heldPlan m b sub.planId).any (fun plan =>
          (benefitPolicyOf sub plan).allows row.benefitType))) → owed m b grant = owed' := by
      rintro _ rfl
      rw [owed, hget, Option.any_some, hsid, hsub, Option.any_some]
    refine meets_bind_reads (stillOwed_reads row h) kept_error fun still m₃ h hst => ?_
    obtain ⟨hst, hplans⟩ := hst
    have hdrop : ∀ reason, owed m b grant = false →
        (drop grant.id reason).Meets S.contract S.Kept g m₃ b b := fun reason hn =>
      Within.kept (drop_within _ reason h (fun r hr hid => (hh row htype).drop hn r hr hid))
    split_ifs with hne hcycle
    · refine hdrop _ (howed false ?_)
      rcases hst with ⟨hs, -⟩ | ⟨-, found, -, hsame, rfl⟩
      · simp [hs]
      · obtain rfl := hsame sub hfound
        rw [Bool.not_eq_true'] at hne
        simp [hne]
    · refine hdrop _ (howed false ?_)
      simp [Ne.symm hcycle]
    · refine meets_bind_reads (policyAllows_reads row h) kept_error fun allowed m₄ h hal => ?_
      obtain ⟨found, plan, hsame, hplan, rfl⟩ := hal
      rcases hst with ⟨-, rfl⟩ | ⟨hs, found', hfound', hsame', rfl⟩
      · simp at hne
      obtain rfl := hsame' sub hfound
      obtain rfl := hsame sub hfound'
      have hplan' : heldPlan m b sub.planId = some plan := by
        rw [← hplan, heldPlan, heldPlan, hplans]
        rfl
      have hdecided : owed m b grant = (benefitPolicyOf sub plan).allows row.benefitType := by
        refine howed _ ?_
        simp only [Bool.not_eq_true', Bool.not_eq_false] at hne
        simp [hs, hne, not_not.mp hcycle, hplan']
      split_ifs with hpol
      · rw [Bool.not_eq_true'] at hpol
        exact Within.kept (drop_within _ _ h (fun r hr hid =>
          (hh row htype).drop (hdecided.trans hpol) r hr hid))
      · rw [Bool.not_eq_true', Bool.not_eq_false] at hpol
        refine meets_bind_keeps (handlers_keeps h hrow' (hh row htype) (hdecided.trans hpol) rfl)
          fun _ g m b v h => ?_
        refine meets_bind_reads (query_reads _ h) kept_error fun moment m h _ => ?_
        exact completed_keeps h (hh row htype).complete (fun r => ⟨⟨rfl, .inl rfl⟩, rfl, rfl⟩)
          (fun _ => .inr rfl)
  · refine meets_bind_reads (query_reads _ h) herr fun moment m h _ => ?_
    refine meets_bind_reads (query_reads _ h) herr fun o m h ho => ?_
    refine meets_bind_reads (require_reads (by simp) o h) herr fun t m h ht => ?_
    obtain ⟨rfl, -⟩ := ht
    refine hfail g m b _ t h ?_ ho.1.symm
    exact ⟨fun r => ⟨⟨rfl, .inl rfl⟩, rfl, rfl⟩, fun _ => rfl⟩

/-- A delivery of a grant the session opened, started on a fresh segment, keeps to the changes. -/
def Hands (S : Setting) (benefit : SubscriptionBenefit) : Prop :=
  ∀ m v written, S.Inside m m v v → GrantOf benefit written v →
    m.agenda.grant = some (written.id, true) →
    (deliver benefit written).Meets S.contract S.Kept m m v v

theorem openCycle_fresh (hL : S.Lenient) (hD : S.Hands benefit) {key : CycleKey}
    {scheduledAt moment : ℕ} {reservation : Option UserBenefitKey} (h : S.Inside g m b v)
    (hb : Known benefit v) (hn : Names benefit key scheduledAt)
    (ha : S.Allows benefit.id scheduledAt g b) (hm : S.Moves benefit.id)
    (hr : ∀ k, reservation = some k → k.2 = benefit.benefitId ∧ benefit.cadence = .oncePerUser ∧
      alreadyHeld k.1 benefit.benefitId k v = false) :
    (openCycle benefit key scheduledAt moment reservation).Meets S.contract
      (S.Fresh fun _ _ _ _ => True) g m b v := by
  refine meets_bind_reads (policyAllows_reads _ h) fresh_error fun allowed m h _ => ?_
  split_ifs
  · exact skip_fresh hL h hb hn ha hm
  · refine meets_bind_fresh (settled_fresh hL (P := Known benefit) h
      (fun id => opened_grantFor hb hn hr) (fun id => ha _ rfl rfl rfl rfl (.inl rfl)) hb
      (fun _ _ hst hs => hs.path hst)) fresh_error ?_
    rintro ⟨written, ours⟩ g' m' v' hin ⟨rfl, hw, hours, hb⟩
    dsimp only at hw hours ⊢
    split_ifs with hf
    · exact ⟨rfl, hin, trivial⟩
    · obtain ⟨⟨id, rfl⟩, hhand⟩ := hours (by simpa using hf)
      refine meets_bind_inside (hD _ _ _ hin ⟨hb, hw, rfl⟩ (hhand rfl)) fresh_error
        fun _ g m b v h => ?_
      refine meets_bind_reads (grantOf_reads _ h) fresh_error fun grant m h _ => ?_
      refine meets_bind_inside (advance_keeps hm _ g m b v h) fresh_error fun _ g m b v h => ?_
      refine meets_bind_fresh (commit_fresh (R := fun _ => True) h trivial (fun _ _ _ h => h))
        fresh_error fun _ g m v h _ => ?_
      exact ⟨rfl, h.lenient hL {}, trivial⟩

theorem runCycle_fresh (hL : S.Lenient) (hD : S.Hands benefit) {key : CycleKey} {scheduledAt : ℕ}
    (h : S.Inside g m b v) (hb : Known benefit v) (hn : Names benefit key scheduledAt)
    (ha : S.Allows benefit.id scheduledAt g b) (hm : S.Moves benefit.id) :
    (runCycle benefit key scheduledAt).Meets S.contract (S.Fresh fun _ _ _ _ => True) g m b v := by
  refine meets_bind_reads (query_reads _ h) fresh_error fun existing m h _ => ?_
  cases existing with
  | some existing =>
    refine meets_bind_inside (advance_keeps hm _ g m b v h) fresh_error fun _ g m b v h => ?_
    refine meets_bind_fresh (commit_fresh (R := fun _ => True) h trivial (fun _ _ _ h => h))
      fresh_error ?_
    exact fun _ g m v h _ => ⟨rfl, h, trivial⟩
  | none =>
    refine meets_bind_reads (query_reads _ h) fresh_error fun moment m h _ => ?_
    refine meets_bind_reads (userBenefitKeyOf_reads benefit h) fresh_error fun key' m h hk => ?_
    cases key' with
    | none => exact openCycle_fresh hL hD h hb hn ha hm (by simp)
    | some k =>
      obtain ⟨honce, row, hrow, rfl⟩ := hk k rfl
      refine meets_bind_reads (alreadyHeldByUser_reads benefit hrow h) fresh_error
        fun held m h hheld => ?_
      split_ifs with hf
      · exact skip_fresh hL h hb hn ha hm
      · refine openCycle_fresh hL hD h hb hn ha hm ?_
        rintro k hk
        obtain rfl := Option.some.inj hk
        exact ⟨rfl, honce, by rw [← hheld]; simpa using hf⟩

/-- A benefit owed on its activation has a first slot. -/
theorem firstDue_isSome {benefit : SubscriptionBenefit} (h : benefit.grantOnActivation = true)
    (moment : ℕ) : (firstDue benefit moment).isSome = true := by
  unfold firstDue
  split
  · rfl
  · rw [if_pos h]; rfl

theorem names_activationKey (benefit : SubscriptionBenefit) (slot : ℕ) :
    Names benefit (activationKey benefit slot) slot := by
  unfold Names activationKey
  cases benefit.cadence.interval with
  | none => simp
  | some every =>
    by_cases hc : benefit.cycle = 0
    · simp [hc]
    · simp [hc, Nat.pos_of_ne_zero hc]
/-- A session whose segments may deliver and mark whatever they come to. -/
structure Works (S : Setting) : Prop extends S.Lenient where
  mark : ∀ g b r y, (S.scope g b).mark r y
  delivers : ∀ g b id, (S.scope g b).deliver id

theorem Works.handling (hW : S.Works) (benefit : SubscriptionBenefit) (grant : BenefitGrant)
    (g m : Memory) (b : Store) : S.Handling benefit grant g m b :=
  ⟨fun _ _ _ _ _ _ _ => hW.mark _ _ _ _, fun _ => hW.delivers _ _ _,
    fun _ _ _ _ _ _ _ => hW.mark _ _ _ _, fun _ _ _ _ _ _ _ => hW.mark _ _ _ _⟩

theorem Works.deliver_keeps (hW : S.Works) (h : S.Inside g m b b) (hg : GrantOf benefit grant b) :
    (deliver benefit grant).Meets S.contract S.Kept g m b b := by
  refine deliver_meets h hg (fun row _ => hW.handling row grant g m b) (fun _ _ _ _ h => h) ?_
    kept_error
  intro g m b f t h hf ht
  exact h.change (.mark ht (fun r => (hf.recast r).marks) (fun r _ _ => hW.mark _ _ _ _))

theorem Works.hands (hW : S.Works) (benefit : SubscriptionBenefit) : S.Hands benefit :=
  fun _ _ _ h hg _ => hW.deliver_keeps h hg

theorem writeGrant_keeps (hW : S.Works) (id : ℕ) {f : BenefitGrant → BenefitGrant}
    (hf : ∀ g, Marks g (f g)) : S.Keeps (writeGrant id f) := fun _ _ _ _ h =>
  Within.kept (writeGrant_within id hf h (fun _ _ _ => hW.mark _ _ _ _))

theorem giveUp_keeps (hW : S.Works) (benefit : SubscriptionBenefit) (id : ℕ) :
    S.Keeps (giveUp benefit id) := by
  refine Keeps.bind (subscriptionOf_keeps _) fun _ => ?_
  refine Keeps.bind (fun g m b v h => Within.kept (grantOf_reads id h)) fun _ => ?_
  refine Keeps.bind (keeps_query _) fun _ => ?_
  refine Keeps.bind (writeGrant_keeps hW _ fun _ => ⟨rfl, .inr rfl⟩) fun _ => ?_
  exact record_keeps _ _ _ _

theorem grantOf_keeps (id : ℕ) : S.Keeps (grantOf id) := fun _ _ _ _ h =>
  Within.kept (grantOf_reads id h)

theorem letGo_keeps : S.Keeps letGo := keeps_remember fun _ => {}

theorem closeExhausted_keeps (hW : S.Works) (hm : ∀ id, S.Moves id)
    (benefit : SubscriptionBenefit) (id : ℕ) : S.Keeps (closeExhausted benefit id) := by
  refine Keeps.bind (keeps_query _) fun _ => Keeps.bind (keeps_query _) fun _ => keeps_ite ?_ ?_
  · refine Keeps.bind (writeGrant_keeps hW _ fun _ => ⟨rfl, .inl rfl⟩) fun _ => ?_
    refine Keeps.bind (giveUp_keeps hW benefit id) fun _ => ?_
    refine Keeps.bind (grantOf_keeps id) fun _ => ?_
    refine Keeps.bind (advance_keeps (hm _) _) fun _ => ?_
    exact Keeps.bind commit_keeps fun _ => keeps_pure true
  · exact Keeps.bind commit_keeps fun _ => keeps_pure false

/-- What a retry knows of its grant it still knows once the grant is claimed. -/
theorem claim_fresh (hL : S.Lenient) (id : ℕ) {P : Store → Prop} (h : S.Inside g m b v) (hP : P v)
    (hw : ∀ r ∈ v.grants, r.id = id → takeable v.clock r = true → ∀ y, Marks r y →
      y.status = .processing → y.attempts = r.attempts + 1 → y.startedAt.isSome = true →
      (S.scope g b).mark r y)
    (stable : ∀ s t, Path .any s t → P s → P t) :
    (claim id).Meets S.contract (S.Fresh fun g claimed m v => g = m ∧
      (claimed = true → m.agenda.grant = some (id, false)) ∧ P v) g m b v := by
  refine meets_bind_reads (query_reads _ h) fresh_error fun moment m₁ h hn => ?_
  obtain ⟨rfl, rfl⟩ := hn
  refine meets_bind_reads (query_reads _ h) fresh_error fun row m₂ h hrow => ?_
  obtain ⟨rfl, rfl⟩ := hrow
  split_ifs with htake
  · refine meets_bind_within (writeGrant_within id (fun _ => ⟨rfl, .inl rfl⟩) h ?_) fresh_error ?_
    · intro r hr hid
      refine hw r hr hid ?_ _ ⟨rfl, .inl rfl⟩ rfl rfl rfl
      rw [← hid, show v.grants.get r.id = some r from Table.get_of_mem hr] at htake
      exact htake
    · rintro ⟨⟩ m₃ v' hp hin ⟨rfl, -⟩
      refine meets_bind_within (c := remember (Memory.setGrant (some (id, false))))
        (R := fun _ m' v'' => v'' = v' ∧ m' = m₃.setGrant (some (id, false)))
        ⟨rfl, rfl, .refl, hin.lenient hL {}, rfl, rfl⟩ fresh_error ?_
      rintro ⟨⟩ _ _ - hin ⟨rfl, rfl⟩
      refine meets_bind_fresh (commit_fresh hin (stable _ _ hp.any hP) stable) fresh_error ?_
      rintro ⟨⟩ g m v hin ⟨hg, ha, hP⟩
      exact ⟨rfl, hin, hg, fun _ => by rw [ha]; rfl, hP⟩
  · refine meets_bind_fresh (commit_fresh h hP stable) fresh_error ?_
    rintro ⟨⟩ g m v hin ⟨hg, -, hP⟩
    exact ⟨rfl, hin, hg, by simp, hP⟩

theorem Works.retryGrant_keeps (hW : S.Works) (hm : ∀ id, S.Moves id) (id : ℕ) :
    S.Keeps (retryGrant id) := by
  intro g m b v h
  refine meets_bind_keeps (letGo_keeps g m b v h) fun _ g m b v h => ?_
  refine meets_bind_reads (grantOf_reads id h) kept_error fun grant m h hg => ?_
  refine meets_bind_reads (query_reads _ h) kept_error fun o m h ho => ?_
  refine meets_bind_reads (require_reads (by simp) o h) kept_error fun benefit m h hb => ?_
  obtain ⟨rfl, -⟩ := hb
  have hrow := Table.mem_of_get ho.1.symm
  have hid : benefit.id = grant.subscriptionBenefitId := Table.id_of_get ho.1.symm
  refine meets_bind_reads (stillOwed_reads benefit h) kept_error fun owed m h _ => ?_
  split_ifs
  · refine meets_bind_within (drop_within id _ h (fun _ _ _ _ _ _ => hW.mark _ _ _ _)) kept_error ?_
    exact fun _ _ _ _ h _ => h
  · exact closeExhausted_keeps hW hm benefit id g m b v h
  · refine meets_bind_fresh (claim_fresh hW.toLenient id (P := GrantOf benefit grant) h
      ⟨⟨benefit, hrow, rfl⟩, ⟨grant, hg.1, rfl⟩, hid.symm⟩ (fun _ _ _ _ _ _ _ _ _ => hW.mark _ _ _ _)
      (fun _ _ c h => h.path c)) kept_error ?_
    rintro claimed g m v h ⟨-, -, hgrant⟩
    split_ifs
    · exact h
    · refine meets_bind_keeps (hW.deliver_keeps h hgrant) fun _ g m b v h => ?_
      refine meets_bind_keeps (grantOf_keeps id g m b v h) fun worked g m b v h => ?_
      have hrest : S.Keeps (do
          let closed ← grantOf id
          advance benefit closed
          remember (Memory.setGrant none)
          pure true) := by
        refine Keeps.bind (grantOf_keeps id) fun closed => ?_
        refine Keeps.bind (advance_keeps (hm _) closed) fun _ => fun g m b v h => ?_
        exact meets_bind_keeps (c := remember (Memory.setGrant none))
          (h.lenient hW.toLenient {}) fun _ g m b v h => h
      split_ifs
      · exact meets_bind_keeps (giveUp_keeps hW benefit id g m b v h) fun _ => hrest
      · exact hrest g m b v h

theorem Works.retryEach_keeps (hW : S.Works) (hm : ∀ id, S.Moves id) (ids : List ℕ) :
    S.Keeps (retryEach ids) := by
  induction ids with
  | nil => exact keeps_pure []
  | cons id rest ih =>
    intro g m b v h
    refine meets_bind_keeps (c := remember (Memory.setRetries (id :: rest)))
      (h.lenient hW.toLenient {}) fun _ g m b v h => ?_
    refine meets_bind_keeps (hW.retryGrant_keeps hm id g m b v h) fun worked g m b v h => ?_
    exact meets_bind_keeps (ih g m b v h) fun _ g m b v h => h

theorem Works.retryFailedGrants_keeps (hW : S.Works) (hm : ∀ id, S.Moves id) :
    S.Keeps retryFailedGrants := by
  refine Keeps.bind (keeps_query _) fun moment => Keeps.bind (keeps_query _) fun ids => ?_
  refine Keeps.bind (fun g m b v h => ?_) fun _ => Keeps.bind keeps_publish fun _ => ?_
  · exact h.lenient hW.toLenient {}
  · refine Keeps.bind (hW.retryEach_keeps hm ids) fun _ => ?_
    exact Keeps.bind commit_keeps fun _ => keeps_pure _

/-- What a session of the passes is able to do: move every schedule, remember what it works on,
run a cycle on a fresh segment and retry a grant. -/
structure Able (S : Setting) : Prop where
  benefit : ∀ g b r r', (S.scope g b).benefit r r'
  memory : ∀ {g b m m'}, m'.agenda.event = m.agenda.event → m'.plans = m.plans →
    S.shows g b m → S.shows g b m'
  cycle : ∀ {benefit key scheduledAt g m b v}, S.Inside g m b v → Known benefit v →
    Names benefit key scheduledAt →
    (runCycle benefit key scheduledAt).Meets S.contract S.Kept g m b v
  retry : S.Keeps retryFailedGrants

/-- A session that delivers and marks whatever it comes to is able to do all of it. -/
theorem Works.able (hW : S.Works) (hb : ∀ g b r r', (S.scope g b).benefit r r')
    (hg : ∀ g b r, (S.scope g b).grant r)
    (hm : ∀ {g b m m'}, m'.agenda.event = m.agenda.event → m'.plans = m.plans →
      S.shows g b m → S.shows g b m') : S.Able where
  benefit := hb
  memory := hm
  cycle := fun h hk hn => Fresh.kept (runCycle_fresh hW.toLenient (hW.hands _) h hk hn
    (fun _ _ _ _ _ _ => hg _ _ _) (fun _ _ _ _ _ => hb _ _ _ _))
  retry := hW.retryFailedGrants_keeps (fun _ _ _ _ _ _ => hb _ _ _ _)

theorem Able.loud (hS : S.Able) : S.loud.Able where
  benefit := hS.benefit
  memory := hS.memory
  cycle := fun h hb hn => loud_meets (hS.cycle h.quiet hb hn)
  retry := hS.retry.loud

theorem Able.moves (hS : S.Able) (id : ℕ) : S.Moves id := fun g b r r' _ => hS.benefit g b r r'

theorem Able.writes (hS : S.Able) {p : SubscriptionBenefit → Bool}
    {f : SubscriptionBenefit → SubscriptionBenefit} (g : Memory) (b : Store)
    (r : SubscriptionBenefit) (_ : p r = true) : (S.scope g b).benefit r (f r) :=
  hS.benefit g b r (f r)

theorem Able.remember (hS : S.Able) (h : S.Inside g m b v) {m' : Memory}
    (he : m'.agenda.event = m.agenda.event) (hp : m'.plans = m.plans)
    (ho : m'.purchases = m.purchases) (hc : ∀ c ∈ m'.benefits, Known c v) : S.Inside g m' b v :=
  ⟨h.base, h.path, hc, ho ▸ h.orders, hS.memory he hp h.shows⟩

theorem activateEach_keeps (hS : S.Able) (ids : List ℕ) : S.Keeps (activateEach ids) := by
  induction ids with
  | nil => exact keeps_pure []
  | cons id rest ih =>
    intro g m b v h
    refine meets_bind_reads (benefitOf_reads id h) kept_error fun benefit m h hb => ?_
    split_ifs with hg
    · refine meets_bind_reads (query_reads _ h) kept_error fun moment m h _ => ?_
      cases hs : firstDue benefit moment with
      | none =>
        rw [Bool.and_eq_true] at hg
        have := firstDue_isSome hg.1 moment
        rw [hs] at this
        cases this
      | some slot =>
        refine meets_bind_reads (c := require .typeError (some slot)) (R := fun a _ => a = slot)
          ⟨rfl, rfl, .refl, h, rfl, rfl⟩ kept_error ?_
        rintro _ m h rfl
        refine meets_bind_keeps (hS.cycle h hb.1 (names_activationKey _ _))
          fun grant g m b v h => ?_
        exact meets_bind_keeps (ih g m b v h) fun _ g m b v h => h
    · exact ih g m b v h

theorem promiseEntitlements_keeps (subscription : Subscription) (moment : ℕ)
    (promises : List PlanEntitlement) :
    S.Keeps (promiseEntitlements subscription moment promises) := by
  induction promises with
  | nil => exact keeps_pure []
  | cons promise rest ih =>
    intro g m b v h
    refine meets_bind_keeps (Within.kept (insertOrRead_within h (fun _ _ => rfl)
      (fun _ _ _ _ => .aside rfl rfl rfl rfl rfl rfl rfl rfl rfl))) fun o g m b v h => ?_
    refine meets_bind_reads (require_reads (by simp) o h) kept_error fun row m h _ => ?_
    refine keeps_meets (Keeps.bind writeEntitlements_keeps fun _ => ?_) h
    exact Keeps.bind ih fun _ => keeps_pure _

theorem reconcileEntitlements_keeps (subscription : Subscription) :
    S.Keeps (reconcileEntitlements subscription) := by
  refine Keeps.bind (keeps_query _) fun _ => Keeps.bind (keeps_query _) fun _ => ?_
  refine Keeps.bind (promiseEntitlements_keeps _ _ _) fun _ => ?_
  exact Keeps.bind writeEntitlements_keeps fun _ => keeps_pure _

theorem promiseBenefits_keeps (hS : S.Able) (subscriptionId anchor moment : ℕ)
    (entitlements : List UserEntitlement) (benefits : List Benefit) :
    S.Keeps (promiseBenefits subscriptionId anchor moment entitlements benefits) := by
  induction benefits with
  | nil => exact keeps_pure []
  | cons benefit rest ih =>
    refine Keeps.bind (keeps_query _) fun row => ?_
    cases row with
    | some row =>
      refine Keeps.bind (writeBenefits_keeps (fun _ => rfl) hS.writes) fun _ => ?_
      exact Keeps.bind ih fun _ => keeps_pure _
    | none =>
      refine Keeps.bind (keeps_require (by simp) _) fun entitlement => fun g m b v h => ?_
      refine meets_bind_keeps (Within.kept (insertOrRead_within h (fun _ _ => rfl)
        (fun _ _ _ ht => .snapshot ht))) fun o g m b v h => ?_
      refine meets_bind_reads (require_reads (by simp) o h) kept_error fun row m h _ => ?_
      exact keeps_meets (Keeps.bind ih fun _ => keeps_pure _) h

theorem snapshotBenefits_keeps (hS : S.Able) (subscription : Subscription) (entitlements : List UserEntitlement) :
    S.Keeps (snapshotBenefits subscription entitlements) := by
  refine Keeps.bind (keeps_query _) fun _ => Keeps.bind (keeps_query _) fun _ => ?_
  refine Keeps.bind (promiseBenefits_keeps hS _ _ _ _ _) fun _ => ?_
  exact Keeps.bind (writeBenefits_keeps (fun _ => rfl) hS.writes) fun _ => keeps_pure _

theorem expireEntitlements_keeps (id : ℕ) : S.Keeps (expireEntitlements id) :=
  writeEntitlements_keeps

theorem endBenefits_keeps (hS : S.Able) (id : ℕ) : S.Keeps (endBenefits id) :=
  Keeps.bind (writeBenefits_keeps (fun _ => rfl) hS.writes) fun _ => expireEntitlements_keeps id

theorem activate_keeps (hS : S.Able) (id : ℕ) :
    S.Keeps (activate id) := by
  intro g m b v h
  refine meets_bind_keeps (flush_keeps g m b v h) fun _ g m b v h => ?_
  refine meets_bind_reads (holdSubscription_reads id h) kept_error fun subscription m h _ => ?_
  split_ifs
  · refine keeps_meets (Keeps.bind (expireEntitlements_keeps id) fun _ => ?_) h
    refine Keeps.bind (writeBenefits_keeps (fun _ => rfl) hS.writes) fun _ => ?_
    exact Keeps.bind commit_keeps fun _ => keeps_pure []
  · refine meets_bind_keeps (reconcileEntitlements_keeps subscription g m b v h) fun _ g m b v h => ?_
    refine meets_bind_keeps (snapshotBenefits_keeps hS subscription _ g m b v h) fun benefits g m b v h => ?_
    refine meets_bind_reads (query_reads _ h) kept_error fun kept m h hk => ?_
    -- the copies the activation keeps are of the rows it just wrote
    have hcopies : S.Inside g { m with benefits := kept } b v := by
      refine hS.remember h rfl rfl rfl fun c hc => ?_
      obtain ⟨i, -, hi⟩ := List.mem_filterMap.mp (hk.1 ▸ hc)
      exact ⟨c, Table.mem_of_get hi, rfl⟩
    refine meets_bind_keeps (c := remember fun m => { m with benefits := kept }) hcopies
      fun _ g m b v h => ?_
    refine meets_bind_keeps (commit_keeps g m b v h) fun _ g m b v h => ?_
    refine meets_bind_keeps (activateEach_keeps hS benefits g m b v h) fun grants g m b v h => ?_
    refine meets_bind_keeps (c := remember fun m => { m with benefits := [] })
      (hS.remember h rfl rfl rfl (by simp)) fun _ g m b v h => ?_
    exact keeps_meets (Keeps.bind (subscriptionOf_keeps id) fun _ => keeps_pure grants) h

theorem releaseCycle_keeps (hS : S.Able) (id : ℕ) : S.Keeps (releaseCycle id) := by
  refine Keeps.bind (keeps_query _) fun _ => ?_
  refine Keeps.bind (writeBenefits_keeps (fun _ => rfl) hS.writes) fun _ => ?_
  exact Keeps.bind commit_keeps fun _ => keeps_pure _

theorem openNewCycle_keeps (hS : S.Able) (id operator : ℕ) :
    S.Keeps (openNewCycle id operator) := by
  refine Keeps.bind (subscriptionOf_keeps id) fun _ => ?_
  refine Keeps.bind (releaseCycle_keeps hS id) fun _ => ?_
  exact Keeps.bind (record_keeps _ _ _ _) fun _ => activate_keeps hS id

theorem refresh_keeps (id : ℕ) : S.Keeps (refresh id) := by
  refine Keeps.bind (keeps_query _) fun o => Keeps.bind (keeps_require (by simp) o) fun row => ?_
  exact Keeps.bind (keeps_remember fun _ => {}) fun _ =>
    keeps_pure row

theorem expireEach_keeps (hS : S.Able) (moment : ℕ) (ids : List ℕ) : S.Keeps (expireEach moment ids) := by
  induction ids with
  | nil => exact keeps_pure []
  | cons id rest ih =>
    refine Keeps.bind (keeps_query _) fun row => keeps_ite ?_ ih
    refine Keeps.bind (keeps_beside {}) fun _ => ?_
    refine Keeps.bind (refresh_keeps id) fun _ => Keeps.bind (endBenefits_keeps hS id) fun _ => ?_
    exact Keeps.bind ih fun _ => keeps_pure _

theorem expireSubscriptions_keeps (hS : S.Able) : S.Keeps expireSubscriptions := by
  refine Keeps.bind (keeps_query _) fun moment => Keeps.bind (keeps_query _) fun ids => ?_
  refine Keeps.bind (expireEach_keeps hS moment ids) fun _ => ?_
  exact Keeps.bind commit_keeps fun _ => keeps_pure _

/-- The slot a due pass delivers is one of a recurring benefit. -/
theorem interval_of_resolveDueSlot {benefit moved : SubscriptionBenefit} {moment : ℕ}
    {slot : Option ℕ} (h : resolveDueSlot benefit moment = .ok (slot, moved)) :
    benefit.cadence.interval.isSome = true := by
  unfold resolveDueSlot at h
  split at h
  · cases h
  · cases h
  · rename_i every _ he
    rw [he]
    rfl

theorem names_cycleKey {benefit : SubscriptionBenefit} (h : benefit.cadence.interval.isSome = true)
    (slot : ℕ) : Names benefit (cycleKey slot) slot := by
  rw [Names, if_pos h]
  exact .inl rfl

end Setting
end FastKit
