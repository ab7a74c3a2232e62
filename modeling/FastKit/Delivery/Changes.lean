import FastKit.Services.Sessions
import Mathlib.Logic.Relation

/-! # What a service may write

Everything the services do to what they leave behind is one of a dozen changes. A
change says under which circumstances it is made, so an invariant of the deliveries is
proved once for each change and not once for each function that makes it.
-/

namespace FastKit
open Transaction

/-- A benefit without what its schedule moves. -/
def SubscriptionBenefit.promise (b : SubscriptionBenefit) : SubscriptionBenefit :=
  { b with status := .active, cycle := 0, lastGrantAt := none, nextGrantAt := none }

/-- A grant without what its delivery writes. -/
def BenefitGrant.name (g : BenefitGrant) : ℕ × ℕ × GrantKey × ℕ × CycleKey × ℕ :=
  (g.id, g.subscriptionBenefitId, g.grantKey, g.cycle, g.cycleKey, g.scheduledAt)

/-- A grant as a later write leaves it: its name stays, and its reservation is kept or
given back. -/
def Marks (g g' : BenefitGrant) : Prop :=
  g'.name = g.name ∧ (g'.userBenefitKey = g.userBenefitKey ∨ g'.userBenefitKey = none)

/-- How the two doors of a benefit name a slot: an activation of a cycle opened again by
the cycle, everything else of a recurring benefit by the second of the slot. -/
def Named (b : SubscriptionBenefit) (g : BenefitGrant) : Prop :=
  if b.cadence.interval.isSome then
    g.cycleKey = cycleKey g.scheduledAt ∨ (0 < g.cycle ∧ g.cycleKey = .activation g.cycle)
  else g.cycleKey = .activation g.cycle

/-- A reservation is made for a benefit granted once per user that the user does not hold. -/
def Reserved (s : Store) (b : SubscriptionBenefit) (g : BenefitGrant) : Prop :=
  ∀ key, g.userBenefitKey = some key →
    key.2 = b.benefitId ∧ b.cadence = .oncePerUser ∧ alreadyHeld key.1 b.benefitId key s = false

/-- A grant written where nothing had its key. -/
structure Opened (s : Store) (g : BenefitGrant) : Prop where
  key : g.grantKey = (g.subscriptionBenefitId, g.cycleKey)
  benefit : ∃ b ∈ s.benefits, b.id = g.subscriptionBenefitId ∧ Named b g ∧ Reserved s b g

/-- A movement made for a grant says which, in its key too. -/
def Paid (s : Store) (grantId : Option ℕ) (key : IdempotencyKey) : Prop :=
  ∀ id, grantId = some id → ∃ g ∈ s.grants, ∃ b ∈ s.benefits,
    g.id = id ∧ b.id = g.subscriptionBenefitId ∧
    ((key = .grant g.grantKey ∧ b.benefitType = .credit) ∨
      (key = .product g.grantKey ∧ b.benefitType = .product))

/-- A product handed over for a grant is the one its benefit names. -/
def HandedOver (s : Store) (grantId : Option ℕ) (productId : ℕ) : Prop :=
  ∀ id, grantId = some id → ∃ g ∈ s.grants, ∃ b ∈ s.benefits,
    g.id = id ∧ b.id = g.subscriptionBenefitId ∧ b.benefitType = .product ∧
    b.productId = some productId

/-- What a purchase is of, which no notice moves. -/
def Purchase.order (p : Purchase) : ℕ × ℕ × ℕ × ℕ := (p.id, p.userId, p.productId, p.reference)

/-- How a notice moves a purchase: never back to waiting, never out of a settled status but
to another, never out of a refund, and what was paid once says when. -/
structure Forward (p p' : Purchase) : Prop where
  order : p'.order = p.order
  pending : p'.status = .pending → p.status = .pending
  settled : p.status.settled = true → p'.status.settled = true
  refunded : p.status = .refunded → p'.status = .refunded
  paid : p.paidAt.isSome = true → p'.paidAt.isSome = true
  recorded : p'.status = .paid → p.status ≠ .paid → p'.paidAt.isSome = true

theorem Forward.refl (p : Purchase) : Forward p p :=
  ⟨rfl, fun h => h, fun h => h, fun h => h, fun h => h, fun h hn => absurd h hn⟩

theorem Forward.trans {p p' p'' : Purchase} (h : Forward p p') (h' : Forward p' p'') :
    Forward p p'' where
  order := h'.order.trans h.order
  pending := fun hp => h.pending (h'.pending hp)
  settled := fun hs => h'.settled (h.settled hs)
  refunded := fun hr => h'.refunded (h.refunded hr)
  paid := fun hp => h'.paid (h.paid hp)
  recorded := fun hp hn => by
    by_cases hp' : p'.status = .paid
    · exact h'.paid (h.recorded hp' hn)
    · exact h'.recorded hp hp'

/-- A notice moves a purchase that does not stand where it is. -/
theorem forward_settlement {p : Purchase} {status : PurchaseStatus}
    (h : stands p.status status = false) (externalId : Option ℕ) (moment : ℕ) :
    Forward p (settlement status externalId moment p) := by
  simp only [stands, Bool.or_eq_false_iff, Bool.and_eq_false_iff, beq_eq_false_iff_ne] at h
  obtain ⟨⟨⟨-, hpending⟩, hrefunded⟩, hsettled⟩ := h
  refine ⟨rfl, fun hp => absurd hp hpending, fun hs => ?_, fun hr => absurd hr hrefunded,
    fun hp => ?_, fun hp _ => ?_⟩
  · rcases hsettled with hn | hn
    · rw [hs] at hn
      cases hn
    · exact (by simpa using hn : status.settled = true)
  · unfold settlement
    split_ifs
    · rfl
    · exact hp
  · have hstatus : status = .paid := hp
    unfold settlement
    rw [if_pos hstatus]
    rfl

/-- The account of a purchase holds its product. -/
def Holds (t : Table UserProduct) (p : Purchase) : Prop :=
  ∃ held ∈ t, held.userId = p.userId ∧ held.productId = p.productId

/-- A movement under the reference of a purchase is of one that was paid. -/
def Bought (s : Store) (key : IdempotencyKey) : Prop :=
  ∀ reference, key = .purchase reference →
    ∃ p ∈ s.purchases, p.reference = reference ∧ p.paidAt.isSome = true

/-- What a segment may write: which grants it may open and mark, how it may move the schedule
of a benefit, which grants it may hand over for, how it may move an event, which accounts it
may say a gateway answered for, and whether it may edit the catalogue or let time pass. -/
structure Scope where
  grant : BenefitGrant → Prop
  benefit : SubscriptionBenefit → SubscriptionBenefit → Prop
  mark : BenefitGrant → BenefitGrant → Prop
  deliver : ℕ → Prop
  event : WebhookEvent → WebhookEvent → Prop
  stamp : ℕ → ℕ → Prop
  edit : Prop
  tick : Prop

def Scope.any : Scope where
  grant := fun _ => True
  benefit := fun _ _ => True
  mark := fun _ _ => True
  deliver := fun _ => True
  event := fun _ _ => True
  stamp := fun _ _ => True
  edit := True
  tick := True

/-- The grant a movement or a product is made for may be handed over for. -/
def Delivers (W : Scope) (grantId : Option ℕ) : Prop := ∀ id, grantId = some id → W.deliver id

/-- One write of a service, within a scope. -/
inductive Change (W : Scope) : Store → Store → Prop where
  /-- Whatever leaves the deliveries, the purchases and the events alone. -/
  | aside {s t : Store} (clock : t.clock = s.clock) (catalog : t.catalog = s.catalog)
      (benefits : t.benefits = s.benefits) (grants : t.grants = s.grants)
      (transactions : t.transactions = s.transactions)
      (userProducts : t.userProducts = s.userProducts) (purchases : t.purchases = s.purchases)
      (events : t.events = s.events) (reconciled : t.reconciled = s.reconciled) : Change W s t
  | schedule {s : Store} (p : SubscriptionBenefit → Bool)
      (f : SubscriptionBenefit → SubscriptionBenefit) (still : Still f)
      (kept : ∀ b, (f b).promise = b.promise)
      (within : ∀ b ∈ s.benefits, p b = true → W.benefit b (f b)) :
      Change W s { s with benefits := s.benefits.modify p f still }
  | snapshot {s : Store} {make : ℕ → SubscriptionBenefit} {b : SubscriptionBenefit}
      {t : Table SubscriptionBenefit} (inserted : s.benefits.insert make = some (b, t)) :
      Change W s { s with benefits := t }
  | grant {s : Store} {make : ℕ → BenefitGrant} {g : BenefitGrant} {t : Table BenefitGrant}
      (inserted : s.grants.insert make = some (g, t)) (opened : Opened s g) (allowed : W.grant g) :
      Change W s { s with grants := t }
  | mark {s : Store} {p : BenefitGrant → Bool} {f : BenefitGrant → BenefitGrant}
      {t : Table BenefitGrant} (written : s.grants.alter p f = some t)
      (kept : ∀ g, Marks g (f g)) (within : ∀ g ∈ s.grants, p g = true → W.mark g (f g)) :
      Change W s { s with grants := t }
  | movement {s : Store} {make : ℕ → CreditTransaction} {e : CreditTransaction}
      {t : Table CreditTransaction} {balances : Table UserBalance}
      (inserted : s.transactions.insert make = some (e, t))
      (paid : Paid s e.benefitGrantId e.idempotencyKey)
      (delivers : Delivers W e.benefitGrantId) (bought : Bought s e.idempotencyKey) :
      Change W s { s with transactions := t, balances := balances }
  | product {s : Store} {make : ℕ → UserProduct} {p : UserProduct} {t : Table UserProduct}
      (inserted : s.userProducts.insert make = some (p, t))
      (handed : HandedOver s p.benefitGrantId p.productId)
      (delivers : Delivers W p.benefitGrantId) (given : p.purchaseId = none) :
      Change W s { s with userProducts := t }
  | purchase {s : Store} {make : ℕ → Purchase} {p : Purchase} {t : Table Purchase}
      (inserted : s.purchases.insert make = some (p, t))
      (new : p.status = .pending ∧ p.paidAt = none) : Change W s { s with purchases := t }
  /-- A purchase moved by a notice, with the product where the account did not hold it. -/
  | settled {s : Store} {p : Purchase} {status : PurchaseStatus} {externalId : Option ℕ}
      {moment : ℕ} {t : Table Purchase} {u : Table UserProduct} (found : p ∈ s.purchases)
      (moves : stands p.status status = false)
      (written : s.purchases.alter (·.id == p.id) (settlement status externalId moment) = some t)
      (products : u = s.userProducts ∨ status = .paid ∧
        ∃ make held, s.userProducts.insert make = some (held, u) ∧ held.purchaseId = some p.id ∧
          held.benefitGrantId = none ∧ held.userId = p.userId ∧ held.productId = p.productId)
      (held : status = .paid → Holds u p) :
      Change W s { s with purchases := t, userProducts := u }
  | event {s : Store} (p : WebhookEvent → Bool) (f : WebhookEvent → WebhookEvent) (still : Still f)
      (within : ∀ e ∈ s.events, p e = true → W.event e (f e)) :
      Change W s { s with events := s.events.modify p f still }
  | received {s : Store} {make : ℕ → WebhookEvent} {e : WebhookEvent} {t : Table WebhookEvent}
      (inserted : s.events.insert make = some (e, t))
      (new : e.attempts = 0 ∧ e.updatedAt = s.clock ∧ (e.status = .ignored ∨ e.status = .received ∧
        ∃ i ∈ s.catalog.integrations, i.id = e.integrationId ∧
          ∃ event, e.payload i.provider = .ok (some event))) :
      Change W s { s with events := t }
  | stamp {s : Store} (user moment : ℕ) (allowed : W.stamp user moment) :
      Change W s { s with reconciled := (user, moment) :: s.reconciled }
  | edit {s : Store} (catalog : Catalog) (allowed : W.edit) :
      Change W s { s with catalog := catalog }
  | tick {s : Store} (duration : ℕ) (allowed : W.tick) :
      Change W s { s with clock := s.clock + duration }

/-- Any number of changes. -/
abbrev Path (W : Scope) : Store → Store → Prop := Relation.ReflTransGen (Change W)

variable {W : Scope} {s t : Store}

/-- A scope allows whatever another one does. -/
structure Scope.Le (W W' : Scope) : Prop where
  grant : ∀ g, W.grant g → W'.grant g
  benefit : ∀ b b', W.benefit b b' → W'.benefit b b'
  mark : ∀ g g', W.mark g g' → W'.mark g g'
  deliver : ∀ id, W.deliver id → W'.deliver id
  event : ∀ e e', W.event e e' → W'.event e e'
  stamp : ∀ user moment, W.stamp user moment → W'.stamp user moment
  edit : W.edit → W'.edit
  tick : W.tick → W'.tick

theorem Scope.le_any (W : Scope) : W.Le .any :=
  ⟨fun _ _ => trivial, fun _ _ _ => trivial, fun _ _ _ => trivial, fun _ _ => trivial,
    fun _ _ _ => trivial, fun _ _ _ => trivial, fun _ => trivial, fun _ => trivial⟩

theorem Change.widen {W' : Scope} (h : W.Le W') (c : Change W s t) : Change W' s t := by
  cases c with
  | aside clock catalog benefits grants transactions userProducts purchases events reconciled =>
    exact .aside clock catalog benefits grants transactions userProducts purchases events reconciled
  | schedule p f still kept within =>
    exact .schedule p f still kept (fun b hb hp => h.benefit _ _ (within b hb hp))
  | snapshot inserted => exact .snapshot inserted
  | grant inserted opened allowed => exact .grant inserted opened (h.grant _ allowed)
  | mark written kept within => exact .mark written kept (fun g hg hp => h.mark _ _ (within g hg hp))
  | movement inserted paid delivers bought =>
    exact .movement inserted paid (fun id hid => h.deliver _ (delivers id hid)) bought
  | product inserted handed delivers given =>
    exact .product inserted handed (fun id hid => h.deliver _ (delivers id hid)) given
  | purchase inserted new => exact .purchase inserted new
  | settled found moves written products held =>
    exact .settled found moves written products held
  | event p f still within => exact .event p f still (fun e he hp => h.event _ _ (within e he hp))
  | received inserted new => exact .received inserted new
  | stamp user moment allowed => exact .stamp user moment (h.stamp _ _ allowed)
  | edit catalog allowed => exact .edit catalog (h.edit allowed)
  | tick duration allowed => exact .tick duration (h.tick allowed)

theorem Change.any (c : Change W s t) : Change .any s t := c.widen W.le_any

theorem Path.widen {W' : Scope} (h : W.Le W') (c : Path W s t) : Path W' s t :=
  Relation.ReflTransGen.mono (fun _ _ => Change.widen h) _ _ c

theorem Path.any (c : Path W s t) : Path .any s t := Path.widen W.le_any c

theorem Path.catalog (c : Path W s t) (h : ¬W.edit) : t.catalog = s.catalog := by
  induction c with
  | refl => rfl
  | tail _ c ih =>
    rw [← ih]
    cases c with
    | aside clock catalog => exact catalog
    | edit catalog allowed => exact absurd allowed h
    | _ => rfl

theorem Path.clock (c : Path W s t) (h : ¬W.tick) : t.clock = s.clock := by
  induction c with
  | refl => rfl
  | tail _ c ih =>
    rw [← ih]
    cases c with
    | aside clock => exact clock
    | tick duration allowed => exact absurd allowed h
    | _ => rfl

theorem Path.clock_le (c : Path W s t) : s.clock ≤ t.clock := by
  induction c with
  | refl => exact le_rfl
  | tail _ c ih =>
    refine ih.trans ?_
    cases c with
    | aside clock => exact clock.ge
    | tick duration allowed => exact Nat.le_add_right _ _
    | _ => exact le_rfl

/-- A benefit stays what it promised. -/
theorem Change.benefit_kept (c : Change W s t) {b : SubscriptionBenefit} (hb : b ∈ s.benefits) :
    ∃ b' ∈ t.benefits, b'.promise = b.promise := by
  cases c with
  | aside clock catalog benefits grants transactions userProducts => exact ⟨b, benefits ▸ hb, rfl⟩
  | schedule p f still kept within =>
    exact Table.exists_modify still (fun b b' => b'.promise = b.promise) kept (fun _ => rfl) hb
  | snapshot inserted => exact ⟨b, (Table.mem_insert inserted).mpr (.inl hb), rfl⟩
  | grant | mark | movement | product | purchase | settled | event | received | stamp | edit | tick =>
    exact ⟨b, hb, rfl⟩

/-- A grant stays, under its name. -/
theorem Change.grant_kept (c : Change W s t) {g : BenefitGrant} (hg : g ∈ s.grants) :
    ∃ g' ∈ t.grants, Marks g g' := by
  cases c with
  | aside clock catalog benefits grants transactions userProducts =>
    exact ⟨g, grants ▸ hg, rfl, .inl rfl⟩
  | mark written kept within =>
    refine ⟨_, (Table.mem_alter written).mpr ⟨g, hg, rfl⟩, ?_⟩
    split_ifs
    · exact kept g
    · exact ⟨rfl, .inl rfl⟩
  | grant inserted opened allowed =>
    exact ⟨g, (Table.mem_insert inserted).mpr (.inl hg), rfl, .inl rfl⟩
  | schedule | snapshot | movement | product | purchase | settled | event | received | stamp | edit | tick =>
    exact ⟨g, hg, rfl, .inl rfl⟩

/-- A grant is either one that was there or one the change opened. -/
theorem Change.grant_cases (c : Change W s t) {g : BenefitGrant} (hg : g ∈ t.grants) :
    (∃ g₀ ∈ s.grants, Marks g₀ g) ∨ (Opened s g ∧ W.grant g ∧ ∀ g₀ ∈ s.grants, Apart g₀ g) := by
  cases c with
  | aside clock catalog benefits grants transactions userProducts =>
    exact .inl ⟨g, grants ▸ hg, rfl, .inl rfl⟩
  | mark written kept within =>
    obtain ⟨g₀, hg₀, rfl⟩ := (Table.mem_alter written).mp hg
    refine .inl ⟨g₀, hg₀, ?_⟩
    split_ifs
    · exact kept g₀
    · exact ⟨rfl, .inl rfl⟩
  | grant inserted opened allowed =>
    rcases (Table.mem_insert inserted).mp hg with hg | rfl
    · exact .inl ⟨g, hg, rfl, .inl rfl⟩
    · exact .inr ⟨opened, allowed, (Table.insert_eq_some inserted).2.2.1⟩
  | schedule | snapshot | movement | product | purchase | settled | event | received | stamp | edit | tick =>
    exact .inl ⟨g, hg, rfl, .inl rfl⟩

/-- A movement stays as it was written. -/
theorem Change.transaction_kept (c : Change W s t) {e : CreditTransaction}
    (he : e ∈ s.transactions) : e ∈ t.transactions := by
  cases c with
  | aside clock catalog benefits grants transactions userProducts => exact transactions ▸ he
  | movement inserted paid delivers bought => exact (Table.mem_insert inserted).mpr (.inl he)
  | schedule | snapshot | grant | mark | product | purchase | settled | event | received |
    stamp | edit | tick => exact he

theorem Change.transaction_cases (c : Change W s t) {e : CreditTransaction}
    (he : e ∈ t.transactions) : e ∈ s.transactions ∨
      (Paid s e.benefitGrantId e.idempotencyKey ∧ t.grants = s.grants ∧ t.benefits = s.benefits) := by
  cases c with
  | aside clock catalog benefits grants transactions userProducts => exact .inl (transactions ▸ he)
  | movement inserted paid delivers bought =>
    rcases (Table.mem_insert inserted).mp he with he | rfl
    · exact .inl he
    · exact .inr ⟨paid, rfl, rfl⟩
  | schedule | snapshot | grant | mark | product | purchase | settled | event | received |
    stamp | edit | tick => exact .inl he

theorem Change.userProduct_kept (c : Change W s t) {p : UserProduct} (hp : p ∈ s.userProducts) :
    p ∈ t.userProducts := by
  cases c with
  | aside clock catalog benefits grants transactions userProducts => exact userProducts ▸ hp
  | product inserted handed delivers given => exact (Table.mem_insert inserted).mpr (.inl hp)
  | settled found moves written products held =>
    rcases products with rfl | ⟨-, make, new, inserted, -⟩
    · exact hp
    · exact (Table.mem_insert inserted).mpr (.inl hp)
  | schedule | snapshot | grant | mark | movement | purchase | event | received | stamp | edit | tick => exact hp

theorem Change.userProduct_cases (c : Change W s t) {p : UserProduct} (hp : p ∈ t.userProducts) :
    p ∈ s.userProducts ∨ (HandedOver s p.benefitGrantId p.productId ∧ t.grants = s.grants ∧
      t.benefits = s.benefits) := by
  cases c with
  | aside clock catalog benefits grants transactions userProducts => exact .inl (userProducts ▸ hp)
  | product inserted handed delivers given =>
    rcases (Table.mem_insert inserted).mp hp with hp | rfl
    · exact .inl hp
    · exact .inr ⟨handed, rfl, rfl⟩
  | settled found moves written products held =>
    rcases products with rfl | ⟨-, make, new, inserted, -, hnone, -⟩
    · exact .inl hp
    · rcases (Table.mem_insert inserted).mp hp with hp | rfl
      · exact .inl hp
      · exact .inr ⟨fun id hid => absurd hid (by simp [hnone]), rfl, rfl⟩
  | schedule | snapshot | grant | mark | movement | purchase | event | received | stamp | edit | tick =>
    exact .inl hp

/-- A purchase stays, moved forward. -/
theorem Change.purchase_kept (c : Change W s t) {p : Purchase} (hp : p ∈ s.purchases) :
    ∃ p' ∈ t.purchases, Forward p p' := by
  cases c with
  | aside clock catalog benefits grants transactions userProducts purchases events reconciled =>
    exact ⟨p, purchases ▸ hp, .refl p⟩
  | purchase inserted new => exact ⟨p, (Table.mem_insert inserted).mpr (.inl hp), .refl p⟩
  | @settled q status externalId moment _ _ found moves written =>
    refine ⟨_, (Table.mem_alter written).mpr ⟨p, hp, rfl⟩, ?_⟩
    split_ifs with hid
    · obtain rfl : p = q := Table.eq_of_id hp found (beq_iff_eq.mp hid)
      exact forward_settlement moves externalId moment
    · exact .refl p
  | schedule | snapshot | grant | mark | movement | product | event | received | stamp | edit | tick =>
    exact ⟨p, hp, .refl p⟩

theorem Path.purchase_kept (c : Path W s t) {p : Purchase} (hp : p ∈ s.purchases) :
    ∃ p' ∈ t.purchases, Forward p p' := by
  induction c with
  | refl => exact ⟨p, hp, .refl p⟩
  | tail _ c ih =>
    obtain ⟨p', hp', hf⟩ := ih
    obtain ⟨p'', hp'', hf'⟩ := c.purchase_kept hp'
    exact ⟨p'', hp'', hf.trans hf'⟩

theorem Bought.path {key : IdempotencyKey} (h : Bought s key) (c : Path W s t) : Bought t key := by
  intro reference hk
  obtain ⟨p, hp, href, hpaid⟩ := h reference hk
  obtain ⟨p', hp', hf⟩ := c.purchase_kept hp
  exact ⟨p', hp', (congrArg (·.2.2.2) hf.order).trans href, hf.paid hpaid⟩

/-- A benefit a session read is still there, promising the same. -/
def Known (b : SubscriptionBenefit) (s : Store) : Prop := ∃ b' ∈ s.benefits, b'.promise = b.promise

/-- A grant a session read is still there, under the same name. -/
def KnownGrant (g : BenefitGrant) (s : Store) : Prop := ∃ g' ∈ s.grants, g'.name = g.name

/-- A purchase a session read is still there, of the same order. -/
def KnownPurchase (p : Purchase) (s : Store) : Prop := ∃ p' ∈ s.purchases, p'.order = p.order

theorem KnownPurchase.path {p : Purchase} (h : KnownPurchase p s) (c : Path W s t) :
    KnownPurchase p t := by
  obtain ⟨p', hp', ho⟩ := h
  obtain ⟨p'', hp'', hf⟩ := c.purchase_kept hp'
  exact ⟨p'', hp'', hf.order.trans ho⟩

theorem Known.path {b : SubscriptionBenefit} (h : Known b s) (c : Path W s t) : Known b t := by
  induction c with
  | refl => exact h
  | tail _ c ih =>
    obtain ⟨b', hb', hp⟩ := ih
    obtain ⟨b'', hb'', hp'⟩ := c.benefit_kept hb'
    exact ⟨b'', hb'', hp'.trans hp⟩

theorem KnownGrant.path {g : BenefitGrant} (h : KnownGrant g s) (c : Path W s t) :
    KnownGrant g t := by
  induction c with
  | refl => exact h
  | tail _ c ih =>
    obtain ⟨g', hg', hn⟩ := ih
    obtain ⟨g'', hg'', hm⟩ := c.grant_kept hg'
    exact ⟨g'', hg'', hm.1.trans hn⟩

theorem Path.transaction_kept (c : Path W s t) {e : CreditTransaction} (he : e ∈ s.transactions) :
    e ∈ t.transactions := by
  induction c with
  | refl => exact he
  | tail _ c ih => exact c.transaction_kept ih

theorem Path.userProduct_kept (c : Path W s t) {p : UserProduct} (hp : p ∈ s.userProducts) :
    p ∈ t.userProducts := by
  induction c with
  | refl => exact hp
  | tail _ c ih => exact c.userProduct_kept ih

/-- The grant and the benefit a delivery is for stay what they are. -/
theorem path_grant_benefit (c : Path W s t) {id : ℕ}
    (P : GrantKey → SubscriptionBenefit → Prop)
    (hP : ∀ k b b', b'.promise = b.promise → P k b → P k b')
    (h : ∃ g ∈ s.grants, ∃ b ∈ s.benefits, g.id = id ∧ b.id = g.subscriptionBenefitId ∧
      P g.grantKey b) :
    ∃ g ∈ t.grants, ∃ b ∈ t.benefits, g.id = id ∧ b.id = g.subscriptionBenefitId ∧
      P g.grantKey b := by
  obtain ⟨g, hg, b, hb, hid, hbg, hk⟩ := h
  obtain ⟨g', hg', hn⟩ := KnownGrant.path ⟨g, hg, rfl⟩ c
  obtain ⟨b', hb', hp⟩ := Known.path ⟨b, hb, rfl⟩ c
  have hn1 : g'.id = g.id := congrArg (·.1) hn
  have hn2 : g'.subscriptionBenefitId = g.subscriptionBenefitId := congrArg (·.2.1) hn
  have hn3 : g'.grantKey = g.grantKey := congrArg (·.2.2.1) hn
  have hp1 : b'.id = b.id := congrArg (·.id) hp
  refine ⟨g', hg', b', hb', hn1.trans hid, ?_, ?_⟩
  · rw [hp1, hn2, hbg]
  · rw [hn3]; exact hP _ _ _ hp hk

theorem Paid.path {grantId : Option ℕ} {key : IdempotencyKey} (h : Paid s grantId key)
    (c : Path W s t) : Paid t grantId key := by
  intro id hid
  refine path_grant_benefit c (fun k b => (key = .grant k ∧ b.benefitType = .credit) ∨
    (key = .product k ∧ b.benefitType = .product)) ?_ (h id hid)
  intro k b b' hp hk
  have ht : b'.benefitType = b.benefitType := congrArg (·.benefitType) hp
  rwa [ht]

theorem HandedOver.path {grantId : Option ℕ} {productId : ℕ} (h : HandedOver s grantId productId)
    (c : Path W s t) : HandedOver t grantId productId := by
  intro id hid
  refine path_grant_benefit c (fun _ b => b.benefitType = .product ∧
    b.productId = some productId) ?_ (h id hid)
  intro k b b' hp hk
  have ht : b'.benefitType = b.benefitType := congrArg (·.benefitType) hp
  have hq : b'.productId = b.productId := congrArg (·.productId) hp
  rwa [ht, hq]

end FastKit
