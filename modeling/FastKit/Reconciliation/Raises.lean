import FastKit.Transaction.Raises
import FastKit.Reconciliation.Pending
import FastKit.Services.Reconciliation

/-! # What an answer may raise

A session that has no transaction of a row to write meets no taken name where it flushes, and a
delivery turns whatever it meets into a failed grant. What an answer does before its first flush
neither writes nor renames a row, so all that may collide there is what was waiting before.
-/

namespace FastKit
open Transaction Transaction.Program

/-- Where the database refused a name, and where an opening came round to itself for ever. -/
def Fault.collides : Fault → Bool
  | .integrity | .conflict _ | .recursion => true
  | _ => false

/-- A session that has no transaction of a row to write. -/
def Unnamed (m : Memory) (_ : Store) : Prop := m.pending = []

variable {m : Memory} {s : Store}

theorem Unnamed.load {row : Subscription} (h : Unnamed m s) : Unnamed (m.load row) s := by
  rw [Unnamed, Memory.pending_load, Memory.pendingBut_of_none]
  · exact h
  · exact fun l hl _ => List.filterMap_eq_nil_iff.mp h l hl

/-- Whether the transactions a session has to write would be taken. -/
def Writable (taken : Bool) (m : Memory) (s : Store) : Prop :=
  (flushedInto m s.subscriptions).isSome = taken

variable {taken : Bool} {m' : Memory} {b v : Store} {t w : Table Subscription}

/-- Nothing but what is to be written and the names of the rows decides it. -/
theorem Writable.congr {v' : Store} (h : Writable taken m v) (hpending : m'.pending = m.pending)
    (hnames : rowNames v'.subscriptions = rowNames v.subscriptions) : Writable taken m' v' := by
  rw [← h, Writable, Bool.eq_iff_iff, flushedInto_isSome, flushedInto_isSome, hpending, hnames]

theorem Unnamed.writable (h : Unnamed m v) : Writable true m v := by
  rw [Writable, flushedInto_isSome, h]
  trivial

/-- A flush is refused where what is to be written is not taken, and leaves nothing to write. -/
theorem Writable.flush (h : Writable taken m v) :
    (taken = false ∧ flush m b v = .done v (.error .integrity)) ∨
    (taken = true ∧ ∃ u, flushedInto m v.subscriptions = some u ∧
      flush m b v = .done { v with subscriptions := u } (.ok ((), m.flushed))) := by
  cases taken with
  | false =>
    have hnone := Option.isNone_iff_eq_none.mp (Option.isSome_eq_false_iff.mp h)
    exact .inl ⟨rfl, flush_refused hnone⟩
  | true =>
    obtain ⟨u, hu⟩ := Option.isSome_iff_exists.mp h
    exact .inr ⟨rfl, u, hu, flush_done hu⟩

section
variable {P : Fault → Prop} (hP : ∀ e, e.collides = false → P e)

theorem flush_raises : flush.Raises Unnamed P := by
  intro m b v h
  obtain ⟨hfalse, -⟩ | ⟨-, u, -, hdone⟩ := (Unnamed.writable (v := v) h).flush (b := b)
  · cases hfalse
  · unfold Meets
    rw [hdone]
    exact Memory.pending_flushed

theorem commit_raises : commit.Raises Unnamed P := flush_raises.bind fun _ => raises_publish

theorem persist_raises : persist.Raises Unnamed P := by
  refine Raises.bind (fun m b v h => ?_) fun _ => raises_publish
  rw [meets_attempt]
  refine (flush_raises (P := fun _ => False) m b v h).mono ?_
  rintro g (e | p) b v hend
  · exact hend.elim
  · exact hend

include hP

theorem subscriptionOf_raises (id : ℕ) : (subscriptionOf id).Raises Unnamed P := by
  intro m b v h
  simp only [subscriptionOf, meets_bind, meets_remembered, ending_ok]
  cases m.find id with
  | some row => exact h
  | none =>
    simp only [meets_bind, meets_query, ending_ok]
    cases hrow : v.subscriptions.get id with
    | none => exact hP _ rfl
    | some row => exact h.load

theorem holdSubscription_raises (id : ℕ) : (holdSubscription id).Raises Unnamed P := by
  intro m b v h
  simp only [holdSubscription, meets_bind, meets_query, ending_ok]
  cases hrow : v.subscriptions.get id with
  | none => exact hP _ rfl
  | some row => exact h.load

end

theorem aside_raises {P : Fault → Prop} {f : Store → Store} :
    (execute f : Db Unit).Raises Unnamed P := raises_execute fun _ _ h => h

/-- What remembers no subscription. -/
theorem beside_raises {P : Fault → Prop} {f : Memory → Memory}
    (hf : ∀ m, (f m).subscriptions = m.subscriptions) : (remember f : Db Unit).Raises Unnamed P :=
  raises_remember fun m _ h => by rwa [Unnamed, Memory.pending, hf]

theorem writeBenefits_raises {P : Fault → Prop} (p : SubscriptionBenefit → Bool)
    (f : SubscriptionBenefit → SubscriptionBenefit) (h : Still f) :
    (writeBenefits p f h).Raises Unnamed P := aside_raises

theorem writeEntitlements_raises {P : Fault → Prop} (p : UserEntitlement → Bool)
    (f : UserEntitlement → UserEntitlement) (h : Still f) :
    (writeEntitlements p f h).Raises Unnamed P := aside_raises

theorem insertOrRead_raises {P : Fault → Prop} {α κ : Type} [Keyed α κ] [DecidableEq κ]
    (table : Store → Table α) {put : Table α → Store → Store}
    (read : α → Bool) (make : ℕ → α) :
    (insertOrRead table put read make).Raises Unnamed P := by
  refine (raises_query _).bind fun found => ?_
  cases found with
  | some row => exact raises_pure _
  | none =>
    refine flush_raises.bind fun _ => (raises_query _).bind fun inserted => ?_
    cases inserted with
    | some p => exact aside_raises.bind fun _ => raises_pure _
    | none => exact raises_query _

/-- The grant of a delivery is written where the keys it holds become no more. -/
theorem writeGrant_raises {P : Fault → Prop} (id : ℕ) {f : BenefitGrant → BenefitGrant}
    (hid : ∀ g, (f g).id = g.id) (hkeys : ∀ g, ∀ k ∈ Keyed.keys (f g), k ∈ Keyed.keys g) :
    (writeGrant id f).Raises Unnamed P := by
  intro m b v h
  obtain ⟨t, ht⟩ := Option.isSome_iff_exists.mp
    (Table.alter_isSome (t := v.grants) (p := fun g => g.id == id) hid hkeys)
  simp only [writeGrant, meets_bind, meets_query, ending_ok]
  rw [ht]
  exact h

section
variable {P : Fault → Prop} (hP : ∀ e, e.collides = false → P e)
include hP

theorem refreshBenefit_raises (id : ℕ) : (refreshBenefit id).Raises Unnamed P :=
  (raises_query _).bind fun _ => (raises_require (hP _ rfl) _).bind fun _ =>
    Raises.bind (beside_raises fun _ => rfl) fun _ => raises_pure _

theorem grantOf_raises (id : ℕ) : (grantOf id).Raises Unnamed P :=
  (raises_query _).bind fun _ => raises_require (hP _ rfl) _

theorem benefitOf_raises (id : ℕ) : (benefitOf id).Raises Unnamed P := by
  refine (raises_remembered _).bind fun found => ?_
  cases found with
  | some benefit => exact raises_pure _
  | none => exact (raises_query _).bind fun _ => raises_require (hP _ rfl) _

theorem planOf_raises (subscription : Subscription) : (planOf subscription).Raises Unnamed P := by
  refine (raises_remembered _).bind fun found => ?_
  cases found with
  | some plan => exact raises_pure _
  | none =>
    exact (raises_query _).bind fun _ => (raises_require (hP _ rfl) _).bind fun _ =>
      Raises.bind (beside_raises fun _ => rfl) fun _ => raises_pure _

theorem promiseEntitlements_raises (subscription : Subscription) (moment : ℕ)
    (promises : List PlanEntitlement) :
    (promiseEntitlements subscription moment promises).Raises Unnamed P := by
  induction promises with
  | nil => exact raises_pure []
  | cons promise rest ih =>
    refine (insertOrRead_raises _ _ _).bind fun _ => ?_
    refine (raises_require (hP _ rfl) _).bind fun row => ?_
    exact (writeEntitlements_raises _ _ _).bind fun _ => ih.bind fun _ => raises_pure _

theorem reconcileEntitlements_raises (subscription : Subscription) :
    (reconcileEntitlements subscription).Raises Unnamed P := by
  refine (raises_query _).bind fun _ => (raises_query _).bind fun _ => ?_
  refine (promiseEntitlements_raises hP _ _ _).bind fun _ => ?_
  exact (writeEntitlements_raises _ _ _).bind fun _ => raises_pure _

theorem promiseBenefits_raises (subscriptionId anchor moment : ℕ)
    (entitlements : List UserEntitlement) (benefits : List Benefit) :
    (promiseBenefits subscriptionId anchor moment entitlements benefits).Raises Unnamed P := by
  induction benefits with
  | nil => exact raises_pure []
  | cons benefit rest ih =>
    refine (raises_query _).bind fun found => ?_
    cases found with
    | some row =>
      exact (writeBenefits_raises _ _ _).bind fun _ => ih.bind fun _ => raises_pure _
    | none =>
      refine (raises_require (hP _ rfl) _).bind fun entitlement => ?_
      refine (insertOrRead_raises _ _ _).bind fun _ => ?_
      exact (raises_require (hP _ rfl) _).bind fun row => ih.bind fun _ => raises_pure _

theorem snapshotBenefits_raises (subscription : Subscription) (entitlements : List UserEntitlement) :
    (snapshotBenefits subscription entitlements).Raises Unnamed P := by
  refine (raises_query _).bind fun _ => (raises_query _).bind fun _ => ?_
  refine (promiseBenefits_raises hP _ _ _ _ _).bind fun _ => ?_
  exact (writeBenefits_raises _ _ _).bind fun _ => raises_pure _

theorem alreadyHeldByUser_raises (benefit : SubscriptionBenefit) (key : UserBenefitKey) :
    (alreadyHeldByUser benefit key).Raises Unnamed P :=
  (subscriptionOf_raises hP _).bind fun _ => raises_query _

theorem userBenefitKeyOf_raises (benefit : SubscriptionBenefit) :
    (userBenefitKeyOf benefit).Raises Unnamed P :=
  Raises.ite ((subscriptionOf_raises hP _).bind fun _ => raises_pure _) (raises_pure _)

theorem policyAllows_raises (benefit : SubscriptionBenefit) :
    (policyAllows benefit).Raises Unnamed P := by
  refine (subscriptionOf_raises hP _).bind fun subscription => (planOf_raises hP _).bind fun plan => ?_
  cases benefitPolicyOf subscription plan <;> exact raises_pure _

theorem stillOwed_raises (benefit : SubscriptionBenefit) :
    (stillOwed benefit).Raises Unnamed P :=
  Raises.ite (raises_pure _) ((subscriptionOf_raises hP _).bind fun _ => raises_pure _)

theorem advance_raises (benefit : SubscriptionBenefit) (grant : BenefitGrant) :
    (advance benefit grant).Raises Unnamed P :=
  Raises.ite ((raises_query _).bind fun _ => (writeBenefits_raises _ _ _).bind fun _ =>
    (refreshBenefit_raises hP _).bind fun _ => raises_pure _) (raises_pure _)

theorem settled_raises (grant : ℕ → BenefitGrant) : (settled grant).Raises Unnamed P := by
  refine (insertOrRead_raises _ _ _).bind fun written => ?_
  refine Raises.bind (beside_raises fun m => ?_) fun _ => commit_raises.bind fun _ =>
    raises_require (hP _ rfl) _
  rcases written with _ | ⟨grant, _ | _⟩
  · rfl
  · rfl
  · dsimp only [Memory.takeUp]
    split_ifs <;> rfl

theorem skip_raises (benefit : SubscriptionBenefit) (grant : ℕ → BenefitGrant) (reason : String) :
    (skip benefit grant reason).Raises Unnamed P :=
  (raises_query _).bind fun _ => (advance_raises hP _ _).bind fun _ =>
    (settled_raises hP _).bind fun _ => raises_pure _

omit hP in
theorem drop_raises (grantId : ℕ) (reason : String) : (drop grantId reason).Raises Unnamed P := by
  refine (raises_query _).bind fun _ => writeGrant_raises _ (fun _ => rfl) fun g k hk => ?_
  obtain rfl := List.mem_singleton.mp hk
  exact List.mem_cons_self

end

theorem rollback_raises {P : Fault → Prop} : rollback.Raises Unnamed P := fun _ _ _ _ => rfl

section Delivering

/-- What a delivery does may end in any error. -/
abbrev Anyhow {α : Type} (c : Db α) : Prop := c.Raises Unnamed fun _ => True

theorem held_ends (userId currencyId : ℕ) : Anyhow (held userId currencyId) :=
  (insertOrRead_raises _ _ _).bind fun _ => (raises_query _).bind fun _ =>
    raises_require trivial _

theorem writeMovement_ends (held : UserBalance) (signed : ℤ) (type : CreditTransactionType)
    (description : Option String) (key : IdempotencyKey) (benefitGrantId : Option ℕ) :
    Anyhow (writeMovement .whole held signed type description key benefitGrantId) := by
  refine (raises_query _).bind fun written => ?_
  cases written with
  | some p =>
    exact aside_raises.bind fun _ => persist_raises.bind fun _ => raises_pure _
  | none => exact rollback_raises.bind fun _ => raises_raise trivial

theorem moveHeld_ends (userId currencyId : ℕ) (type : CreditTransactionType) (amount : ℤ)
    (description : Option String) (key : IdempotencyKey) (benefitGrantId : Option ℕ) :
    Anyhow (moveHeld .whole userId currencyId type amount description key benefitGrantId) := by
  refine (held_ends _ _).bind fun held => (raises_query _).bind fun settled => ?_
  cases settled with
  | some settled => exact (raises_pure ()).bind fun _ => raises_pure _
  | none =>
    refine (raises_pure ()).bind fun _ => ?_
    cases signedAmount type amount with
    | error e => exact raises_raise trivial
    | ok signed =>
      refine Raises.ite (raises_raise trivial) (Raises.ite (raises_raise trivial) ?_)
      exact writeMovement_ends _ _ _ _ _ _

theorem move_ends (userId currencyId : ℕ) (type : CreditTransactionType) (amount : ℤ)
    (description : Option String) (key : IdempotencyKey) (benefitGrantId : Option ℕ) :
    Anyhow (move .whole userId currencyId type amount description key benefitGrantId) := by
  refine (raises_query _).bind fun existing => ?_
  cases existing with
  | some existing => exact raises_pure _
  | none =>
    refine (raises_pure ()).bind fun _ => (raises_query _).bind fun _ => ?_
    refine (raises_require trivial _).bind fun user => (raises_query _).bind fun _ => ?_
    refine (raises_require trivial _).bind fun currency => ?_
    exact Raises.ite (raises_raise trivial) (moveHeld_ends _ _ _ _ _ _ _)

theorem commerceGrant_ends (userId productId : ℕ) (sourceKey : IdempotencyKey)
    (subscriptionId purchaseId benefitGrantId : Option ℕ) :
    Anyhow (commerceGrant userId productId sourceKey subscriptionId purchaseId benefitGrantId) := by
  refine (raises_query _).bind fun _ => ?_
  refine (insertOrRead_raises _ _ _).bind fun _ => ?_
  refine (raises_require trivial _).bind fun settled => Raises.ite (raises_pure _) ?_
  refine (raises_query _).bind fun _ => (raises_require trivial _).bind fun product => ?_
  have hrest : Anyhow (do
      persist
      pure (settled.1, true) : Db (UserProduct × Bool)) := persist_raises.bind fun _ => raises_pure _
  cases product.creditsCurrencyId with
  | none => exact (raises_pure ()).bind fun _ => hrest
  | some currencyId =>
    exact Raises.ite ((move_ends _ _ _ _ _ _ _).bind fun _ => hrest)
      ((raises_pure ()).bind fun _ => hrest)

theorem deliverAccess_ends (benefit : SubscriptionBenefit) (grant : BenefitGrant) :
    Anyhow (deliverAccess benefit grant) :=
  (raises_query _).bind fun _ => (raises_require trivial _).bind fun _ =>
    (writeEntitlements_raises _ _ _).bind fun _ =>
      writeGrant_raises _ (fun _ => rfl) fun _ _ hk => hk

theorem deliverCredit_ends (benefit : SubscriptionBenefit) (grant : BenefitGrant) :
    Anyhow (deliverCredit benefit grant) :=
  (subscriptionOf_raises (fun _ _ => trivial) _).bind fun _ =>
    (planOf_raises (fun _ _ => trivial) _).bind fun _ =>
      (raises_require trivial _).bind fun _ => (move_ends _ _ _ _ _ _ _).bind fun _ =>
        writeGrant_raises _ (fun _ => rfl) fun _ _ hk => hk

theorem deliverProduct_ends (benefit : SubscriptionBenefit) (grant : BenefitGrant) :
    Anyhow (deliverProduct benefit grant) := by
  refine (subscriptionOf_raises (fun _ _ => trivial) _).bind fun _ => ?_
  refine (raises_require trivial _).bind fun _ => (commerceGrant_ends _ _ _ _ _ _).bind fun _ => ?_
  refine Raises.ite ?_ ?_ <;> exact writeGrant_raises _ (fun _ => rfl) fun _ _ hk => hk

theorem handlers_ends (type : BenefitType) (benefit : SubscriptionBenefit) (grant : BenefitGrant) :
    Anyhow (handlers type benefit grant) := by
  cases type
  · exact deliverAccess_ends benefit grant
  · exact deliverCredit_ends benefit grant
  · exact deliverProduct_ends benefit grant

end Delivering

/-- Whatever a delivery meets, its grant is written as failed. -/
theorem deliver_raises {P : Fault → Prop} (benefit : SubscriptionBenefit) (grant : BenefitGrant) :
    (deliver benefit grant).Raises Unnamed P := by
  refine Raises.attempt (fun m v w h => h) (Q := fun _ => True) ?_ fun e _ => ?_
  · refine (holdSubscription_raises (fun _ _ => trivial) _).bind fun _ => ?_
    refine (refreshBenefit_raises (fun _ _ => trivial) _).bind fun benefit => ?_
    refine (stillOwed_raises (fun _ _ => trivial) _).bind fun owed => ?_
    refine Raises.ite (drop_raises _ _) (Raises.ite (drop_raises _ _) ?_)
    refine (policyAllows_raises (fun _ _ => trivial) _).bind fun allowed => ?_
    refine Raises.ite (drop_raises _ _) ((handlers_ends _ _ _).bind fun _ => ?_)
    exact (raises_query _).bind fun _ => writeGrant_raises _ (fun _ => rfl) fun _ _ hk => hk
  · exact rollback_raises.bind fun _ => (raises_query _).bind fun _ =>
      writeGrant_raises _ (fun _ => rfl) fun _ _ hk => hk

section
variable {P : Fault → Prop} (hP : ∀ e, e.collides = false → P e)
include hP

theorem openCycle_raises (benefit : SubscriptionBenefit) (key : CycleKey) (scheduledAt moment : ℕ)
    (userBenefitKey : Option UserBenefitKey) :
    (openCycle benefit key scheduledAt moment userBenefitKey).Raises Unnamed P := by
  refine (policyAllows_raises hP _).bind fun _ => Raises.ite (skip_raises hP _ _ _) ?_
  refine (settled_raises hP _).bind fun written => Raises.ite (raises_pure _) ?_
  refine (deliver_raises _ _).bind fun _ => (grantOf_raises hP _).bind fun grant => ?_
  refine (advance_raises hP _ _).bind fun _ => commit_raises.bind fun _ => ?_
  exact Raises.bind (beside_raises fun _ => rfl) fun _ => raises_pure _

theorem runCycle_raises (benefit : SubscriptionBenefit) (key : CycleKey) (scheduledAt : ℕ) :
    (runCycle benefit key scheduledAt).Raises Unnamed P := by
  refine (raises_query _).bind fun found => ?_
  cases found with
  | some existing =>
    exact (advance_raises hP _ _).bind fun _ => commit_raises.bind fun _ => raises_pure _
  | none =>
    refine (raises_query _).bind fun _ => (userBenefitKeyOf_raises hP _).bind fun key => ?_
    cases key with
    | none => exact openCycle_raises hP _ _ _ _ _
    | some key =>
      refine (alreadyHeldByUser_raises hP _ _).bind fun _ => ?_
      exact Raises.ite (skip_raises hP _ _ _) (openCycle_raises hP _ _ _ _ _)

theorem activateEach_raises (ids : List ℕ) : (activateEach ids).Raises Unnamed P := by
  induction ids with
  | nil => exact raises_pure []
  | cons id rest ih =>
    refine (benefitOf_raises hP id).bind fun benefit => Raises.ite ?_ ih
    refine (raises_query _).bind fun _ => (raises_require (hP _ rfl) _).bind fun slot => ?_
    exact (runCycle_raises hP _ _ _).bind fun _ => ih.bind fun _ => raises_pure _

end

/-- What follows a flush is come to with nothing to write, or not at all. -/
theorem flushing {α : Type} {k : Unit → Db α} {P : Fault → Prop} (hP : taken = false → P .integrity)
    (hk : taken = true → (k ()).Raises Unnamed P) (h : Writable taken m v) :
    (flush >>= k).Meets (solo fun _ => True)
      (ending (fun _ p _ w => taken = true ∧ Unnamed p.2 w) fun _ e _ _ => P e) () m b v := by
  unfold Meets
  obtain ⟨htaken, hdone⟩ | ⟨htaken, u, -, hdone⟩ := h.flush (b := b)
  · rw [bind_error hdone]
    exact hP htaken
  · rw [bind_ok hdone]
    refine (hk htaken m.flushed b { v with subscriptions := u } Memory.pending_flushed).mono ?_
    rintro g (e | p) b w hend
    · exact hend
    · exact ⟨htaken, hend⟩

theorem flushing_writable {α : Type} {k : Unit → Db α} {P : Fault → Prop}
    (hP : taken = false → P .integrity) (hk : taken = true → (k ()).Raises Unnamed P) :
    (flush >>= k).Raises (Writable taken) P := by
  refine fun m b v h => (flushing hP hk h).mono ?_
  rintro g (e | p) b w hend
  · exact hend
  · obtain ⟨rfl, hunnamed⟩ := hend
    exact hunnamed.writable

/-- An error is a collision exactly where what is to be written is not taken. -/
def Collides (taken : Bool) (e : Fault) : Prop := e.collides = !taken

/-- A program keeps whether what is to be written is taken, and what it raises is a collision exactly
where it is not. -/
def Abides {α : Type} (taken : Bool) (c : Db α) (m : Memory) (b v : Store) : Prop :=
  c.Meets (solo fun _ => True)
    (ending (fun _ p _ w => Writable taken p.2 w) fun _ e _ _ => Collides taken e) () m b v

theorem flush_writable {P : Fault → Prop} (hP : taken = false → P .integrity) :
    flush.Raises (Writable taken) P :=
  bind_pure flush ▸ flushing_writable hP fun _ => raises_pure ()

theorem commit_writable : commit.Raises (Writable taken) (Collides taken) :=
  (flush_writable fun h => h ▸ rfl).bind fun _ => raises_publish

theorem persist_writable : persist.Raises (Writable taken) (Collides taken) := by
  refine Raises.bind (fun m b v h => ?_) fun _ => raises_publish
  rw [meets_attempt]
  refine (flush_writable (P := fun _ => taken = false) id m b v h).mono ?_
  rintro g (e | p) b v hend
  · obtain rfl : taken = false := hend
    exact rfl
  · exact hend

/-- What writes no subscription. -/
theorem aside_writable {P : Fault → Prop} {f : Store → Store}
    (hf : ∀ s, (f s).subscriptions = s.subscriptions) :
    (execute f : Db Unit).Raises (Writable taken) P :=
  raises_execute fun _ _ h => h.congr rfl (by rw [hf])

theorem record_writable (tenant : Option ℕ) (user : ℕ) (level : LogLevel) (message : LogMessage) :
    (record tenant user level message).Raises (Writable taken) (Collides taken) :=
  Raises.bind (aside_writable fun _ => rfl) fun _ => persist_writable

theorem endBenefits_writable {P : Fault → Prop} (id : ℕ) :
    (endBenefits id).Raises (Writable taken) P :=
  Raises.bind (aside_writable fun _ => rfl) fun _ => aside_writable fun _ => rfl

theorem releaseCycle_writable (id : ℕ) :
    (releaseCycle id).Raises (Writable taken) (Collides taken) :=
  (raises_query _).bind fun _ => Raises.bind (aside_writable fun _ => rfl) fun _ =>
    commit_writable.bind fun _ => raises_pure _

theorem activate_writable (id : ℕ) : (activate id).Raises (Writable taken) (Collides taken) := by
  refine flushing_writable (fun h => h ▸ rfl) fun htaken => ?_
  have hP : ∀ e : Fault, e.collides = false → Collides taken e := fun e he => htaken ▸ he
  refine (holdSubscription_raises hP id).bind fun subscription => ?_
  refine Raises.ite ?_ ?_
  · refine (writeEntitlements_raises _ _ _).bind fun _ => (writeBenefits_raises _ _ _).bind fun _ => ?_
    exact commit_raises.bind fun _ => raises_pure _
  · refine (reconcileEntitlements_raises hP _).bind fun _ => ?_
    refine (snapshotBenefits_raises hP _ _).bind fun _ => (raises_query _).bind fun _ => ?_
    refine Raises.bind (beside_raises fun _ => rfl) fun _ => commit_raises.bind fun _ => ?_
    refine (activateEach_raises hP _).bind fun _ => ?_
    refine Raises.bind (beside_raises fun _ => rfl) fun _ => ?_
    exact (subscriptionOf_raises hP _).bind fun _ => raises_pure _

section
variable {id : ℕ} {row : Subscription} {purchase : ProviderPurchase} {f : Subscription → Subscription}

theorem find_load : (m.load row).find row.id = some row := by simp [Memory.find, Memory.load]

theorem find_copies {g : Loaded → Loaded} (hg : ∀ l, (g l).loaded.id = l.loaded.id) :
    (m.subscriptions.map g).find? (·.loaded.id == id) =
      (m.subscriptions.find? (·.loaded.id == id)).map g := by
  rw [List.find?_map]
  exact congrArg (fun p => (m.subscriptions.find? p).map g) (funext fun l => by simp [hg])

theorem find_assign (h : m.find id = some row) : (m.assign id f).find id = some (f row) := by
  obtain ⟨l, hl, rfl⟩ := Option.map_eq_some_iff.mp h
  have hid : l.loaded.id = id := by simpa using List.find?_some hl
  have hcopies : (m.subscriptions.map fun l => if l.loaded.id == id then { l with now := f l.now }
      else l).find? (·.loaded.id == id) = _ := find_copies fun l => by split_ifs <;> rfl
  rw [Memory.find, Memory.assign, hcopies, hl, Option.map_some, Option.map_some,
    if_pos (beq_iff_eq.mpr hid)]

theorem find_sync (hf : ∀ r, (f r).id = r.id) (h : m.find id = some row) :
    (m.sync id f).find id = some (f row) := by
  obtain ⟨l, hl, rfl⟩ := Option.map_eq_some_iff.mp h
  have hid : l.loaded.id = id := by simpa using List.find?_some hl
  have hcopies : (m.subscriptions.map fun l => if l.loaded.id == id then ⟨f l.loaded, f l.now⟩
      else l).find? (·.loaded.id == id) = _ := find_copies fun l => by split_ifs <;> simp [hf]
  rw [Memory.find, Memory.sync, hcopies, hl, Option.map_some, Option.map_some,
    if_pos (beq_iff_eq.mpr hid)]

theorem subscriptionOf_loaded (h : m.find id = some row) :
    subscriptionOf id m b v = .done v (.ok (row, m)) := by
  unfold subscriptionOf
  rw [remembered_bind, h]
  rfl

theorem assign_loaded (h : m.find id = some row) :
    assign id f m b v = .done v (.ok ((), m.assign id f)) := by
  unfold FastKit.assign
  rw [bind_ok (subscriptionOf_loaded h)]
  rfl

theorem carry_loaded (h : m.find id = some row) :
    carry id purchase m b v = .done v (.ok ((), m.assign id (carried purchase v.clock))) := by
  unfold carry now
  rw [query_bind, assign_loaded h]

theorem Writable.assign (h : Writable taken m v) (hf : ∀ r, (f r).externalId = r.externalId) :
    Writable taken (m.assign id f) v := h.congr (Memory.pending_assign id hf) rfl

variable (h : Writable taken m v) (hfind : m.find id = some row)
include h hfind

theorem close_writable (status : SubscriptionStatus) (reason : String) :
    Abides taken (close id status reason) m b v := by
  unfold Abides Meets close
  rw [bind_ok (subscriptionOf_loaded hfind)]
  split_ifs
  · exact h
  · unfold now
    rw [query_bind, bind_ok (assign_loaded hfind)]
    have hrest : (do
        endBenefits id
        record row.tenantId row.userId .warning (.closed id status reason)
        pure 1 : Db ℕ).Raises (Writable taken) (Collides taken) :=
      (endBenefits_writable id).bind fun _ => (record_writable _ _ _ _).bind fun _ => raises_pure 1
    exact hrest _ b v (h.assign fun _ => rfl)

/-- What follows of a row that was handed over. -/
theorem handed_writable (subscription : Subscription) (userId : ℕ) :
    Abides taken (do
      endBenefits id
      carry id purchase
      commit
      record subscription.tenantId userId .info (.receiptPassedOn id subscription.userId userId)
      let _ ← releaseCycle id
      let _ ← activate id
      pure 1 : Db ℕ) m b v := by
  have hrest : (do
      commit
      record subscription.tenantId userId .info (.receiptPassedOn id subscription.userId userId)
      let _ ← releaseCycle id
      let _ ← activate id
      pure 1 : Db ℕ).Raises (Writable taken) (Collides taken) :=
    commit_writable.bind fun _ => (record_writable _ _ _ _).bind fun _ =>
      (releaseCycle_writable id).bind fun _ => (activate_writable id).bind fun _ => raises_pure 1
  obtain ⟨w, hended, hsubscriptions⟩ : ∃ w, endBenefits id m b v = .done w (.ok ((), m)) ∧
      w.subscriptions = v.subscriptions := ⟨_, rfl, rfl⟩
  unfold Abides Meets
  rw [bind_ok hended, bind_ok (carry_loaded hfind)]
  exact hrest _ b w ((h.congr rfl (by rw [hsubscriptions])).assign fun _ => rfl)

/-- A row with the transaction of the purchase has nothing to adopt. -/
theorem align_writable (statedAt : Option ℕ) (hname : row.externalId = purchase.externalId) :
    Abides taken (align id purchase statedAt) m b v := by
  have hadopt : adopt id purchase m b v = .done v (.ok (false, m)) := by
    unfold adopt
    rw [bind_ok (subscriptionOf_loaded hfind), if_pos (by simp [hname])]
    rfl
  unfold Abides align now
  rw [meets_bind, meets_query, ending_ok]
  refine meets_ite.mpr ⟨fun _ => close_writable h hfind _ _, fun _ => ?_⟩
  refine meets_ite.mpr ⟨fun _ => close_writable h hfind _ _, fun _ => ?_⟩
  have hcarry : carry id purchase m b v =
      .done v (.ok ((), m.assign id (carried purchase v.clock))) := carry_loaded hfind
  have hafter := find_assign (f := carried purchase v.clock) hfind
  have hkept : Writable taken (m.assign id (carried purchase v.clock)) v := h.assign fun _ => rfl
  unfold Meets
  rw [bind_ok hadopt]
  change Outcome.Meets _ _ ((do
    let before ← subscriptionOf id
    carry id purchase
    let after ← subscriptionOf id
    if snapshot before = snapshot after then pure 0
    else
      let _ ← activate id
      pure 1 : Db ℕ) m b v) _ _
  rw [bind_ok (subscriptionOf_loaded hfind), bind_ok hcarry, bind_ok (subscriptionOf_loaded hafter)]
  split_ifs
  · exact hkept
  · have hrest : (do
        let _ ← activate id
        pure 1 : Db ℕ).Raises (Writable taken) (Collides taken) :=
      (activate_writable id).bind fun _ => raises_pure 1
    exact hrest _ b v hkept

end
/-- A session has nothing to write over the transaction of a row, which is `name`. -/
structure Unrenamed (taken : Bool) (id : ℕ) (name : Option ℕ) (m : Memory) (s : Store) : Prop where
  writable : Writable taken m s
  own : ∀ l ∈ m.subscriptions, l.loaded.id = id → l.pending = none
  rows : ∀ r ∈ s.subscriptions, r.id = id → r.externalId = name

section
variable {id : ℕ} {name : Option ℕ} {row : Subscription}

/-- A row nothing is to be written over keeps its transaction. -/
theorem writeLoaded_own {held : List Loaded}
    (hown : ∀ l ∈ held, l.loaded.id = id → l.pending = none)
    (hrows : ∀ r ∈ t, r.id = id → r.externalId = name) (hw : writeLoaded held t = some w) :
    ∀ r ∈ w, r.id = id → r.externalId = name := by
  induction held generalizing t with
  | nil =>
    cases hw
    exact hrows
  | cons l rest ih =>
    have hrest := fun l hl => hown l (List.mem_cons_of_mem _ hl)
    rw [writeLoaded] at hw
    split_ifs at hw
    · exact ih hrest hrows hw
    · obtain ⟨u, hu, hw⟩ := Option.bind_eq_some_iff.mp hw
      refine ih hrest (fun r hr hid => ?_) hw
      obtain ⟨a, ha, rfl⟩ := (Table.mem_alter hu).mp hr
      split_ifs at hid ⊢ with hl
      · have hsame := Loaded.pending_none.mp
          (hown l List.mem_cons_self ((beq_iff_eq.mp hl).symm.trans hid))
        exact (if_pos hsame).trans (hrows a ha hid)
      · exact hrows a ha hid

/-- A row that is rewritten where it is keeps its transaction, in memory and in the table. -/
theorem Unrenamed.moved {f : Subscription → Subscription} (hf : ∀ r, (f r).id = r.id ∧
      (f r).integrationId = r.integrationId ∧ (f r).externalId = r.externalId)
    (h : Unrenamed taken id name m v) (ht : v.subscriptions.alter (·.id == id) f = some t) :
    Unrenamed taken id name (m.sync id f) { v with subscriptions := t } := by
  have hkept : ∀ r, (f r).id = r.id ∧ (f r).externalId = r.externalId := fun r =>
    ⟨(hf r).1, (hf r).2.2⟩
  refine ⟨h.writable.congr (Memory.pending_sync _ hkept) (rowNames_kept hf ht),
    fun l hl hid => ?_, fun r hr hid => ?_⟩
  · obtain ⟨l, hmem, rfl⟩ := List.mem_map.mp hl
    rw [Loaded.pending_sync id hkept]
    refine h.own l hmem ?_
    split_ifs at hid
    · exact (hkept l.loaded).1.symm.trans hid
    · exact hid
  · obtain ⟨a, ha, rfl⟩ := (Table.mem_alter ht).mp hr
    split_ifs at hid ⊢
    · exact (hkept a).2.trans (h.rows a ha ((hkept a).1.symm.trans hid))
    · exact h.rows a ha hid

theorem flush_unrenamed : flush.Raises (Unrenamed taken id name) (Collides taken) := by
  intro m b v h
  unfold Meets
  obtain ⟨rfl, hdone⟩ | ⟨rfl, u, hu, hdone⟩ := h.writable.flush (b := b)
  · rw [hdone]
    exact rfl
  · rw [hdone]
    refine ⟨Unnamed.writable Memory.pending_flushed, fun l hl _ => ?_,
      writeLoaded_own (fun l hl => h.own l ((List.mem_insertionSort _).mp hl)) h.rows hu⟩
    exact List.filterMap_eq_nil_iff.mp Memory.pending_flushed l hl

theorem releaseCycle_unrenamed (i : ℕ) :
    (releaseCycle i).Raises (Unrenamed taken id name) (Collides taken) := by
  have hwrite : (writeBenefits (·.subscriptionId == i)
      (fun b => { b with cycle := b.cycle + 1, lastGrantAt := none }) fun _ => ⟨rfl, rfl⟩).Raises
      (Unrenamed taken id name) (Collides taken) :=
    raises_execute fun m v h => ⟨h.writable.congr rfl rfl, h.own, h.rows⟩
  exact (raises_query _).bind fun _ => hwrite.bind fun _ =>
    (flush_unrenamed.bind fun _ => raises_publish).bind fun _ => raises_pure _

end
end FastKit
