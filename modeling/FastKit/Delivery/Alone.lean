import FastKit.Delivery.Schedule
import FastKit.Transaction.Commits

/-! # A delivery nobody runs beside

A session alone in its store, which loaded what it has not changed, flushes nothing. What it
delivers of a cycle then writes one grant and what is handed over for it, and leaves the
subscriptions, the schedules and every other grant as they are.
-/

namespace FastKit
open Transaction Transaction.Program

/-- What a session runs under that nobody else runs beside. -/
abbrev lone : Contract Memory Memory Store := solo fun _ => True

/-- A session with nothing to flush, and with no copy of a benefit. -/
structure Memory.Bare (m : Memory) : Prop where
  clean : m.Clean
  benefits : m.benefits = []

namespace Memory.Bare
variable {m : Memory}

theorem empty : Memory.empty.Bare := ⟨fun _ h => absurd h List.not_mem_nil, rfl⟩

theorem flushed (h : m.Bare) : m.flushed.Bare := ⟨m.clean_flushed, h.benefits⟩

theorem expired : m.expired.Bare := ⟨m.clean_expired, rfl⟩

theorem load (h : m.Bare) (row : Subscription) : (m.load row).Bare := by
  refine ⟨fun l hl => ?_, h.benefits⟩
  rcases List.mem_cons.mp hl with rfl | hl
  · rfl
  · exact h.clean l (List.mem_of_mem_filter hl)

theorem keepBenefit (h : m.Bare) (row : SubscriptionBenefit) : (m.keepBenefit row).Bare :=
  ⟨h.clean, by rw [Memory.keepBenefit, h.benefits]; rfl⟩

theorem keepPlan (h : m.Bare) (row : Plan) : (m.keepPlan row).Bare := ⟨h.clean, h.benefits⟩

theorem setGrant (h : m.Bare) (grant : Option (ℕ × Bool)) : (m.setGrant grant).Bare :=
  ⟨h.clean, h.benefits⟩

theorem takeUp (h : m.Bare) (written : Option (BenefitGrant × Bool)) : (m.takeUp written).Bare := by
  unfold Memory.takeUp
  split
  · split_ifs
    · exact h.setGrant _
    · exact h
  · exact h

end Memory.Bare

/-- What a session remembers that goes on holding whatever it loads of stores `I` holds of. -/
structure Carries (H : Memory → Prop) (I : Store → Prop) : Prop where
  clean : ∀ {m}, H m → m.Clean
  flushed : ∀ {m}, H m → H m.flushed
  expired : ∀ {m}, H m → H m.expired
  load : ∀ {m} (row : Subscription), H m → H (m.load row)
  keepPlan : ∀ {m} (row : Plan), H m → H (m.keepPlan row)
  keepBenefit : ∀ {m s} {row : SubscriptionBenefit}, H m → I s → row ∈ s.benefits →
    H (m.keepBenefit row)

theorem Carries.mono {H : Memory → Prop} {I J : Store → Prop} (h : Carries H I)
    (hJ : ∀ t, J t → I t) : Carries H J :=
  { h with keepBenefit := fun hm ht hrow => h.keepBenefit hm (hJ _ ht) hrow }

theorem Memory.Bare.carries (I : Store → Prop) : Carries Memory.Bare I where
  clean := fun h => h.clean
  flushed := fun h => h.flushed
  expired := fun _ => Memory.Bare.expired
  load := fun row h => h.load row
  keepPlan := fun row h => h.keepPlan row
  keepBenefit := fun {_ _ row} h _ _ => h.keepBenefit row

section Leaves
variable {α β : Type} {H : Memory → Prop} {I : Store → Prop} {g m : Memory} {b v : Store}

/-- How a program ends that leaves what `I` says of the store. -/
def Left (H : Memory → Prop) (I : Store → Prop) :
    Memory → Except Fault (α × Memory) → Store → Store → Prop :=
  ending (fun _ p b v => H p.2 ∧ I b ∧ I v) (fun _ _ b v => I b ∧ I v)

/-- The program, run alone with such a memory, leaves what `I` says of the store. -/
def Leaves (H : Memory → Prop) (I : Store → Prop) (c : Db α) : Prop :=
  ∀ g m b v, H m → I b → I v → c.Meets lone (Left H I) g m b v

theorem Leaves.bind {c : Db α} {f : α → Db β} (hc : Leaves H I c) (hf : ∀ a, Leaves H I (f a)) :
    Leaves H I (c >>= f) := fun g m b v hm hb hv =>
  (hc g m b v hm hb hv).bind (fun g a m b v h => hf a g m b v h.1 h.2.1 h.2.2)
    (fun _ _ _ _ h => h)

theorem Leaves.meets_bind {c : Db α} {f : α → Db β}
    {post : Memory → Except Fault (β × Memory) → Store → Store → Prop} (hc : Leaves H I c)
    (hm : H m) (hb : I b) (hv : I v) (herr : ∀ g e b v, I b → I v → post g (.error e) b v)
    (hf : ∀ a g m b v, H m → I b → I v → (f a).Meets lone post g m b v) :
    (c >>= f).Meets lone post g m b v :=
  (hc g m b v hm hb hv).bind (fun g a m b v h => hf a g m b v h.1 h.2.1 h.2.2)
    (fun g e b v h => herr g e b v h.1 h.2)

theorem leaves_pure (a : α) : Leaves H I (pure a) := fun _ _ _ _ hm hb hv => ⟨hm, hb, hv⟩

theorem leaves_query (f : Store → α) : Leaves H I (query f) := fun _ _ _ _ hm hb hv => ⟨hm, hb, hv⟩

theorem leaves_remembered (f : Memory → α) : Leaves H I (remembered f) :=
  fun _ _ _ _ hm hb hv => ⟨hm, hb, hv⟩

theorem leaves_remember {f : Memory → Memory} (hf : ∀ m, H m → H (f m)) :
    Leaves H I (remember f) := fun _ m _ _ hm hb hv => ⟨hf m hm, hb, hv⟩

theorem leaves_raise (e : Fault) : Leaves H I (raise e : Db α) := fun _ _ _ _ _ hb hv => ⟨hb, hv⟩

theorem leaves_execute {f : Store → Store} (hf : ∀ s, I s → I (f s)) : Leaves H I (execute f) :=
  fun _ _ _ v hm hb hv => ⟨hm, hb, hf v hv⟩

theorem leaves_require (e : Fault) (o : Option α) : Leaves H I (require e o) := by
  cases o with
  | some a => exact leaves_pure a
  | none => exact leaves_raise e

theorem leaves_ite {p : Prop} [Decidable p] {c d : Db α} (hc : Leaves H I c) (hd : Leaves H I d) :
    Leaves H I (if p then c else d) := by
  split_ifs
  · exact hc
  · exact hd

theorem leaves_attempt {c : Db α} {f : Fault → Db α} (hc : Leaves H I c)
    (hf : ∀ e, Leaves H I (f e)) : Leaves H I (attempt c f) := by
  intro g m b v hm hb hv
  rw [meets_attempt]
  refine (hc g m b v hm hb hv).mono ?_
  rintro g (e | p) b v h
  · exact hf e g m b v hm h.1 h.2
  · exact h

theorem leaves_publish : Leaves H I publish := fun _ _ _ _ hm _ hv =>
  solo_publish trivial ⟨hm, hv, hv⟩

/-- A commit of a session with nothing to flush publishes what it wrote. -/
theorem commit_clean {f : Unit → Db α}
    {post : Memory → Except Fault (α × Memory) → Store → Store → Prop} (hm : m.Clean)
    (h : (f ()).Meets lone post g m.flushed v v) : (commit >>= f).Meets lone post g m b v := by
  rw [commit, meets_bind, meets_bind]
  exact Setting.flush_clean hm (solo_publish trivial h)

variable (hC : Carries H I)
include hC

theorem leaves_rollback : Leaves H I rollback := fun _ _ _ _ hm hb _ => ⟨hC.expired hm, hb, hb⟩

theorem leaves_flush : Leaves H I flush := fun _ _ _ _ hm hb hv =>
  Setting.flush_clean (hC.clean hm) ⟨hC.flushed hm, hb, hv⟩

theorem leaves_persist : Leaves H I persist :=
  Leaves.bind (leaves_attempt (leaves_flush hC) fun _ =>
    (leaves_rollback hC).bind fun _ => leaves_raise _) fun _ => leaves_publish

theorem leaves_subscriptionOf (id : ℕ) : Leaves H I (subscriptionOf id) := by
  refine Leaves.bind (leaves_remembered _) fun row => ?_
  cases row with
  | some row => exact leaves_pure row
  | none =>
    refine Leaves.bind (leaves_query _) fun o => Leaves.bind (leaves_require _ o) fun row => ?_
    exact Leaves.bind (leaves_remember fun _ => hC.load row) fun _ => leaves_pure row

theorem leaves_holdSubscription (id : ℕ) : Leaves H I (holdSubscription id) := by
  refine Leaves.bind (leaves_query _) fun o => Leaves.bind (leaves_require _ o) fun row => ?_
  exact Leaves.bind (leaves_remember fun _ => hC.load row) fun _ => leaves_pure row

theorem leaves_refreshBenefit (id : ℕ) : Leaves H I (refreshBenefit id) := by
  intro g m b v hm hb hv
  simp only [refreshBenefit, meets_bind, meets_query, ending_ok]
  cases hrow : v.benefits.get id with
  | none => exact ⟨hb, hv⟩
  | some row => exact ⟨hC.keepBenefit hm hv (Table.mem_of_get hrow), hb, hv⟩

theorem leaves_planOf (subscription : Subscription) : Leaves H I (planOf subscription) := by
  refine Leaves.bind (leaves_remembered _) fun plan => ?_
  cases plan with
  | some plan => exact leaves_pure plan
  | none =>
    refine Leaves.bind (leaves_query _) fun o => Leaves.bind (leaves_require _ o) fun plan => ?_
    exact Leaves.bind (leaves_remember fun _ => hC.keepPlan plan) fun _ => leaves_pure plan

theorem leaves_policyAllows (benefit : SubscriptionBenefit) :
    Leaves H I (policyAllows benefit) := by
  refine Leaves.bind (leaves_subscriptionOf hC _) fun subscription => ?_
  refine Leaves.bind (leaves_planOf hC _) fun plan => ?_
  cases benefitPolicyOf subscription plan <;> exact leaves_pure _

theorem leaves_stillOwed (benefit : SubscriptionBenefit) : Leaves H I (stillOwed benefit) :=
  leaves_ite (leaves_pure false)
    (Leaves.bind (leaves_subscriptionOf hC _) fun _ => leaves_pure _)

theorem leaves_insertOrRead {κ : Type} [Keyed α κ] [DecidableEq κ] {table : Store → Table α}
    {put : Table α → Store → Store} {read : α → Bool} {make : ℕ → α}
    (hput : ∀ s row t, I s → (table s).insert make = some (row, t) → I (put t s)) :
    Leaves H I (insertOrRead table put read make) := by
  refine Leaves.bind (leaves_query _) fun found => ?_
  cases found with
  | some row => exact leaves_pure _
  | none =>
    refine Leaves.bind (leaves_flush hC) fun _ => fun g m b v hm hb hv => ?_
    rw [meets_bind, meets_query, ending_ok]
    cases hi : (table v).insert make with
    | some written => exact ⟨hm, hb, hput v _ _ hv hi⟩
    | none => exact ⟨hm, hb, hv⟩

end Leaves

/-- What holds of a store goes on holding while one of its grants is delivered: it is not about
what a delivery hands over, and a write of the grant under its name leaves it. -/
structure Stands (I : Store → Prop) (id : ℕ) : Prop where
  aside : ∀ {s t}, I s → t.clock = s.clock → t.subscriptions = s.subscriptions →
    t.benefits = s.benefits → t.grants = s.grants → I t
  grant : ∀ {s t} {f : BenefitGrant → BenefitGrant}, I s → (∀ g, (f g).name = g.name) →
    s.grants.alter (·.id == id) f = some t → I { s with grants := t }

section Delivers
variable {H : Memory → Prop} {I : Store → Prop} {grant : BenefitGrant} (hC : Carries H I)
  (hI : Stands I grant.id)
include hC hI

theorem leaves_held (userId currencyId : ℕ) : Leaves H I (held userId currencyId) := by
  refine Leaves.bind (leaves_insertOrRead hC ?_) fun _ => ?_
  · exact fun s _ t h _ => hI.aside h rfl rfl rfl rfl
  · exact Leaves.bind (leaves_query _) fun o => leaves_require _ o

theorem leaves_writeMovement (held : UserBalance) (signed : ℤ) (type : CreditTransactionType)
    (description : Option String) (key : IdempotencyKey) (grantId : Option ℕ) :
    Leaves H I (writeMovement .whole held signed type description key grantId) := by
  refine Leaves.bind (leaves_query _) fun inserted => ?_
  cases inserted with
  | some inserted =>
    refine Leaves.bind (leaves_execute ?_) fun _ =>
      Leaves.bind (leaves_persist hC) fun _ => leaves_pure _
    exact fun s h => hI.aside h rfl rfl rfl rfl
  | none => exact Leaves.bind (leaves_rollback hC) fun _ => leaves_raise _

theorem leaves_move (userId currencyId : ℕ) (type : CreditTransactionType) (amount : ℤ)
    (description : Option String) (key : IdempotencyKey) (grantId : Option ℕ) :
    Leaves H I (move .whole userId currencyId type amount description key grantId) := by
  refine Leaves.bind (leaves_query _) fun existing => ?_
  cases existing with
  | some existing => exact leaves_pure existing
  | none =>
    refine Leaves.bind (leaves_pure ()) fun _ => ?_
    refine Leaves.bind (leaves_query _) fun o => Leaves.bind (leaves_require _ o) fun user => ?_
    refine Leaves.bind (leaves_query _) fun o => Leaves.bind (leaves_require _ o) fun currency => ?_
    refine leaves_ite (leaves_raise _) ?_
    refine Leaves.bind (leaves_held hC hI _ _) fun held =>
      Leaves.bind (leaves_query _) fun settled => ?_
    cases settled with
    | some settled => exact Leaves.bind (leaves_pure ()) fun _ => leaves_pure settled
    | none =>
      refine Leaves.bind (leaves_pure ()) fun _ => ?_
      cases signedAmount type amount with
      | error error => exact leaves_raise error
      | ok signed =>
        refine leaves_ite (leaves_raise _) (leaves_ite (leaves_raise _) ?_)
        exact leaves_writeMovement hC hI _ _ _ _ _ _

theorem leaves_commerceGrant (userId productId : ℕ) (key : IdempotencyKey)
    (subscriptionId grantId : Option ℕ) :
    Leaves H I (commerceGrant userId productId key subscriptionId none grantId) := by
  refine Leaves.bind (leaves_query _) fun moment =>
    Leaves.bind (leaves_insertOrRead hC ?_) fun o => ?_
  · exact fun s _ t h _ => hI.aside h rfl rfl rfl rfl
  · refine Leaves.bind (leaves_require _ o) fun written => leaves_ite (leaves_pure _) ?_
    refine Leaves.bind (leaves_query _) fun o => Leaves.bind (leaves_require _ o) fun product => ?_
    have hrest : Leaves H I (do persist; pure (written.1, true) : Db (UserProduct × Bool)) :=
      (leaves_persist hC).bind fun _ => leaves_pure _
    split
    · exact leaves_ite (Leaves.bind (leaves_move hC hI _ _ _ _ _ _ _) fun _ => hrest) hrest
    · exact hrest

omit hC in
/-- A grant is written under its name. -/
theorem leaves_writeGrant {f : BenefitGrant → BenefitGrant} (hf : ∀ g, (f g).name = g.name) :
    Leaves H I (writeGrant grant.id f) := by
  intro g m b v hm hb hv
  simp only [writeGrant, meets_bind, meets_query, ending_ok]
  cases ha : v.grants.alter (·.id == grant.id) f with
  | none => exact ⟨hb, hv⟩
  | some t => exact ⟨hm, hb, hI.grant hv hf ha⟩

theorem leaves_handlers (type : BenefitType) (benefit : SubscriptionBenefit) :
    Leaves H I (handlers type benefit grant) := by
  cases type with
  | access =>
    refine Leaves.bind (leaves_query _) fun o => Leaves.bind (leaves_require _ o) fun _ => ?_
    refine Leaves.bind (leaves_execute ?_) fun _ => leaves_writeGrant hI fun _ => rfl
    exact fun s h => hI.aside h rfl rfl rfl rfl
  | credit =>
    refine Leaves.bind (leaves_subscriptionOf hC _) fun _ => Leaves.bind (leaves_planOf hC _) fun _ => ?_
    refine Leaves.bind (leaves_require _ _) fun _ => ?_
    refine Leaves.bind (leaves_move hC hI _ _ _ _ _ _ _) fun _ => ?_
    exact leaves_writeGrant hI fun _ => rfl
  | product =>
    refine Leaves.bind (leaves_subscriptionOf hC _) fun _ => Leaves.bind (leaves_require _ _) fun _ => ?_
    refine Leaves.bind (leaves_commerceGrant hC hI _ _ _ _ _) fun _ => ?_
    exact leaves_ite (leaves_writeGrant hI fun _ => rfl) (leaves_writeGrant hI fun _ => rfl)

omit hC in
theorem leaves_drop (reason : String) : Leaves H I (drop grant.id reason) :=
  Leaves.bind (leaves_query _) fun _ => leaves_writeGrant hI fun _ => rfl

/-- Whatever becomes of a delivery, it leaves the rest as it was. -/
theorem leaves_deliver (benefit : SubscriptionBenefit) : Leaves H I (deliver benefit grant) := by
  refine leaves_attempt ?_ fun error => ?_
  · refine Leaves.bind (leaves_holdSubscription hC _) fun _ => ?_
    refine Leaves.bind (leaves_refreshBenefit hC _) fun benefit => ?_
    refine Leaves.bind (leaves_stillOwed hC benefit) fun _ => leaves_ite (leaves_drop hI _) ?_
    refine leaves_ite (leaves_drop hI _) ?_
    refine Leaves.bind (leaves_policyAllows hC benefit) fun _ => leaves_ite (leaves_drop hI _) ?_
    refine Leaves.bind (leaves_handlers hC hI _ benefit) fun _ => ?_
    exact Leaves.bind (leaves_query _) fun _ => leaves_writeGrant hI fun _ => rfl
  · refine Leaves.bind (leaves_rollback hC) fun _ => Leaves.bind (leaves_query _) fun _ => ?_
    exact leaves_writeGrant hI fun _ => rfl

end Delivers

/-- A store in which one grant, under its name, is being delivered after the others, and which
is as another one in what no delivery writes. -/
structure Delivering (s : Store) (rows : List BenefitGrant) (grant : BenefitGrant) (t : Store) :
    Prop where
  clock : t.clock = s.clock
  subscriptions : t.subscriptions = s.subscriptions
  benefits : t.benefits = s.benefits
  grants : ∃ g, g.name = grant.name ∧ t.grants.rows = rows ++ [g]

theorem Delivering.stands (s : Store) (rows : List BenefitGrant) (grant : BenefitGrant) :
    Stands (Delivering s rows grant) grant.id where
  aside := by
    intro t u h hclock hsubscriptions hbenefits hgrants
    exact ⟨hclock.trans h.clock, hsubscriptions.trans h.subscriptions, hbenefits.trans h.benefits,
      hgrants ▸ h.grants⟩
  grant := by
    intro t u f h hf ha
    obtain ⟨g, hname, hrows⟩ := h.grants
    have hid : g.id = grant.id := congrArg (·.1) hname
    have hother : ∀ r ∈ rows, (r.id == grant.id) = false := by
      intro r hr
      have hapart := (List.pairwise_append.mp (hrows ▸ t.grants.apart)).2.2 r hr g (by simp)
      exact beq_false_of_ne fun h => hapart.1 (h.trans hid.symm)
    refine ⟨h.clock, h.subscriptions, h.benefits, f g, (hf g).trans hname, ?_⟩
    change u.rows = _
    rw [(Table.alter_eq_some ha).1, hrows, List.map_append]
    congr 1
    · conv_rhs => rw [← List.map_id rows]
      exact List.map_congr_left fun r hr => by simp [hother r hr]
    · simp [hid]

end FastKit
