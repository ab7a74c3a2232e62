import FastKit.Delivery.Passes

/-! # The reconciliation keeps to the changes

The reconciliation writes subscriptions, and leaves the deliveries to the service that
makes them. Asking a gateway writes when it answered, and nothing else of its own.
-/

namespace FastKit
open Transaction Transaction.Program

namespace Setting
variable {α : Type} {S : Setting} {g m : Memory} {b v : Store}

theorem assign_keeps (id : ℕ) (f : Subscription → Subscription) : S.Keeps (assign id f) :=
  Keeps.bind (subscriptionOf_keeps id) fun _ => keeps_remember fun _ => {}

theorem refreshExpired_keeps (ids : List ℕ) : S.Keeps (refreshExpired ids) := by
  induction ids with
  | nil => exact keeps_pure ()
  | cons id rest ih => exact Keeps.bind (subscriptionOf_keeps id) fun _ => ih

theorem oursOf_keeps (integration : Integration) (user : User) :
    S.Keeps (oursOf integration user) :=
  Keeps.bind (keeps_query _) fun _ => Keeps.bind (refreshExpired_keeps _) fun _ => keeps_pure _

theorem hold_keeps (id : ℕ) (statedAt : Option ℕ) : S.Keeps (hold id statedAt) := by
  refine Keeps.bind (keeps_query _) fun _ => keeps_ite ?_ (keeps_pure false)
  refine Keeps.bind (keeps_beside {}) fun _ => ?_
  exact Keeps.bind (refresh_keeps id) fun _ => keeps_pure true

theorem moveRow_keeps (id : ℕ) (still : Subscription → Bool) (f : Subscription → Subscription) :
    S.Keeps (moveRow id still f) := by
  refine Keeps.bind (keeps_remember fun _ => {}) fun _ => ?_
  refine Keeps.bind (keeps_query _) fun _ => keeps_ite ?_ ?_
  · refine Keeps.bind (keeps_query _) fun o => Keeps.bind (keeps_require (by simp) o) fun t => ?_
    refine Keeps.bind (keeps_beside {}) fun _ => ?_
    exact keeps_pure true
  · exact Keeps.bind (refresh_keeps id) fun _ => keeps_pure false

theorem repoint_keeps (hS : S.Able) (integration : Integration) (id : ℕ)
    (purchase : ProviderPurchase) : S.Keeps (repoint integration id purchase) := by
  refine Keeps.bind (subscriptionOf_keeps id) fun _ => Keeps.bind (keeps_query _) fun product => ?_
  cases product with
  | none => exact keeps_pure false
  | some product =>
    refine keeps_ite (keeps_pure false) (Keeps.bind (moveRow_keeps _ _ _) fun _ => ?_)
    refine keeps_ite (keeps_pure false) (Keeps.bind (keeps_query _) fun o => ?_)
    refine Keeps.bind (keeps_require (by simp) o) fun _ => keeps_ite ?_ (keeps_pure true)
    exact Keeps.bind (releaseCycle_keeps hS id) fun _ => keeps_pure true

theorem close_keeps (hS : S.Able) (id : ℕ) (status : SubscriptionStatus) (reason : String) :
    S.Keeps (close id status reason) := by
  refine Keeps.bind (subscriptionOf_keeps id) fun _ => keeps_ite (keeps_pure 0) ?_
  refine Keeps.bind (keeps_query _) fun _ => Keeps.bind (assign_keeps _ _) fun _ => ?_
  refine Keeps.bind (endBenefits_keeps hS id) fun _ => ?_
  exact Keeps.bind (record_keeps _ _ _ _) fun _ => keeps_pure 1

theorem adopt_keeps (hS : S.Able) (id : ℕ) (purchase : ProviderPurchase) :
    S.Keeps (adopt id purchase) := by
  refine Keeps.bind (subscriptionOf_keeps id) fun _ => keeps_ite (keeps_pure false) ?_
  refine Keeps.bind (keeps_query _) fun found => ?_
  cases found with
  | none => exact Keeps.bind (assign_keeps _ _) fun _ => keeps_pure false
  | some found =>
    refine Keeps.bind (subscriptionOf_keeps _) fun _ => keeps_ite (keeps_pure false) ?_
    refine Keeps.bind (assign_keeps _ _) fun _ => Keeps.bind flush_keeps fun _ => ?_
    refine Keeps.bind (assign_keeps _ _) fun _ => ?_
    exact Keeps.bind (close_keeps hS _ _ _) fun _ => keeps_pure true

theorem carry_keeps (id : ℕ) (purchase : ProviderPurchase) : S.Keeps (carry id purchase) :=
  Keeps.bind (keeps_query _) fun _ => assign_keeps _ _

theorem handOver_keeps (hS : S.Able) (id : ℕ) (user : User) (purchase : ProviderPurchase) :
    S.Keeps (handOver id user purchase) := by
  refine Keeps.bind (subscriptionOf_keeps id) fun _ => Keeps.bind (moveRow_keeps _ _ _) fun _ => ?_
  refine keeps_ite (keeps_pure 0) (Keeps.bind (endBenefits_keeps hS id) fun _ => ?_)
  refine Keeps.bind (carry_keeps id purchase) fun _ => Keeps.bind commit_keeps fun _ => ?_
  refine Keeps.bind (record_keeps _ _ _ _) fun _ => ?_
  refine Keeps.bind (releaseCycle_keeps hS id) fun _ => ?_
  exact Keeps.bind (activate_keeps hS id) fun _ => keeps_pure 1

theorem align_keeps (hS : S.Able) (id : ℕ) (purchase : ProviderPurchase) (statedAt : Option ℕ) :
    S.Keeps (align id purchase statedAt) := by
  refine Keeps.bind (keeps_query _) fun _ => keeps_ite (close_keeps hS _ _ _) ?_
  refine keeps_ite (close_keeps hS _ _ _) (Keeps.bind (adopt_keeps hS id purchase) fun adopted => ?_)
  have hrest : ∀ held : Bool, S.Keeps (if !held then pure 1 else do
      let before ← subscriptionOf id
      carry id purchase
      let after ← subscriptionOf id
      if snapshot before = snapshot after then pure 0
      else
        let _ ← activate id
        pure 1) := by
    refine fun held => keeps_ite (keeps_pure 1) (Keeps.bind (subscriptionOf_keeps id) fun _ => ?_)
    refine Keeps.bind (carry_keeps id purchase) fun _ => ?_
    refine Keeps.bind (subscriptionOf_keeps id) fun _ => keeps_ite (keeps_pure 0) ?_
    exact Keeps.bind (activate_keeps hS id) fun _ => keeps_pure 1
  exact keeps_ite (Keeps.bind (hold_keeps id statedAt) hrest)
    (Keeps.bind (keeps_pure true) hrest)

theorem openPurchase_keeps (hS : S.Able) {again : Db ℕ} (ha : S.Keeps again)
    (integration : Integration) (user : User) (purchase : ProviderPurchase) (statedAt : Option ℕ) :
    S.Keeps (openPurchase again integration user purchase statedAt) := by
  refine Keeps.bind (keeps_query _) fun moment => keeps_ite (keeps_pure 0) ?_
  refine Keeps.bind (keeps_query _) fun product => ?_
  have hunmapped : S.Keeps (do
      record integration.tenantId user.id .warning
        (.nothingMaps purchase.productReference user.id)
      pure 0) := Keeps.bind (record_keeps _ _ _ _) fun _ => keeps_pure 0
  cases product with
  | none => exact hunmapped
  | some product =>
    cases purchase.externalId with
    | none => exact hunmapped
    | some transaction =>
      intro g m b v h
      refine meets_bind_keeps (Within.kept (insertOrRead_within h (fun _ _ => rfl)
        (fun _ _ _ _ => .aside rfl rfl rfl rfl rfl rfl rfl rfl rfl))) fun o g m b v h => ?_
      refine meets_bind_reads (require_reads (by simp) o h) kept_error fun written m h _ => ?_
      obtain ⟨row, inserted⟩ := written
      refine keeps_meets (keeps_ite ?_ ?_) h
      · refine Keeps.bind (keeps_remember fun _ => {}) fun _ => ?_
        refine Keeps.bind (carry_keeps _ _) fun _ => ?_
        exact Keeps.bind (activate_keeps hS _) fun _ => keeps_pure 1
      · exact Keeps.bind (subscriptionOf_keeps _) fun _ =>
          keeps_ite ha (handOver_keeps hS _ _ _)

theorem settleRow_keeps (hS : S.Able) (integration : Integration) (id : ℕ)
    (purchase : ProviderPurchase) (statedAt : Option ℕ) :
    S.Keeps (settleRow integration id purchase statedAt) := by
  refine Keeps.bind (hold_keeps id statedAt) fun _ => keeps_ite (keeps_pure 0) ?_
  refine Keeps.bind (subscriptionOf_keeps id) fun _ => keeps_ite (keeps_pure 0) ?_
  refine Keeps.bind (repoint_keeps hS _ _ _) fun moved => ?_
  have hrest : ∀ held : Bool, S.Keeps (if !held then pure 1 else do
      let changes ← align id purchase statedAt
      if !moved then pure changes
      else
        let _ ← activate id
        pure 1) := by
    refine fun held => keeps_ite (keeps_pure 1) (Keeps.bind (align_keeps hS _ _ _) fun changes => ?_)
    exact keeps_ite (keeps_pure changes) (Keeps.bind (activate_keeps hS id) fun _ => keeps_pure 1)
  exact keeps_ite (Keeps.bind (hold_keeps id statedAt) hrest)
    (Keeps.bind (keeps_pure true) hrest)

theorem settle_keeps (hS : S.Able) (integration : Integration) (user : User) (statedAt : Option ℕ)
    (again : ℕ) (purchase : ProviderPurchase) (ours : Ours) :
    S.Keeps (settle integration user statedAt again purchase ours) := by
  induction again generalizing ours with
  | zero => exact keeps_raise (S.faults _ (by simp))
  | succ again ih =>
    unfold settle
    split
    · exact Keeps.bind (settleRow_keeps hS _ _ _ _) fun _ => keeps_pure _
    · refine Keeps.bind (keeps_query _) fun same => ?_
      cases same with
      | some id =>
        refine Keeps.bind (subscriptionOf_keeps id) fun _ => ?_
        exact Keeps.bind (settleRow_keeps hS _ _ _ _) fun _ => keeps_pure _
      | none =>
        refine Keeps.bind (openPurchase_keeps hS ?_ _ _ _ _) fun _ => keeps_pure _
        exact Keeps.bind (ih []) fun _ => keeps_pure _

theorem settleEach_keeps (hS : S.Able) (integration : Integration) (user : User)
    (statedAt : Option ℕ) (held : List ProviderPurchase) (ours : Ours) :
    S.Keeps (settleEach integration user statedAt held ours) := by
  induction held generalizing ours with
  | nil => exact keeps_pure _
  | cons purchase rest ih =>
    refine Keeps.bind (settle_keeps hS _ _ _ _ _ _) fun _ => ?_
    refine Keeps.bind (refreshExpired_keeps _) fun _ => ?_
    exact Keeps.bind (ih _) fun _ => keeps_pure _

theorem closeLeftovers_keeps (hS : S.Able) (statedAt : Option ℕ) (ids : List ℕ) :
    S.Keeps (closeLeftovers statedAt ids) := by
  induction ids with
  | nil => exact keeps_pure 0
  | cons id rest ih =>
    refine Keeps.bind (hold_keeps id statedAt) fun _ => keeps_ite ih ?_
    refine Keeps.bind (subscriptionOf_keeps id) fun _ => ?_
    have hrest : ∀ changes : ℕ, S.Keeps (do
        let others ← closeLeftovers statedAt rest
        pure (changes + others)) := fun _ => Keeps.bind ih fun _ => keeps_pure _
    exact keeps_ite (Keeps.bind (close_keeps hS _ _ _) hrest) (Keeps.bind (keeps_pure 0) hrest)

theorem apply_keeps (hS : S.Able) (integration : Integration) (user : User)
    (held : List ProviderPurchase) (complete : Bool) (statedAt : Option ℕ) :
    S.Keeps (apply integration user held complete statedAt) := by
  refine Keeps.bind (oursOf_keeps _ _) fun _ => ?_
  refine Keeps.bind (settleEach_keeps hS _ _ _ _ _) fun settled => ?_
  have hrest : ∀ closed : ℕ, S.Keeps (do
      commit
      pure (settled.1 + closed)) := fun _ => Keeps.bind commit_keeps fun _ => keeps_pure _
  exact keeps_ite (Keeps.bind (closeLeftovers_keeps hS _ _) hrest)
    (Keeps.bind (keeps_pure 0) hrest)

/-- A session that may ask a gateway: time goes by, and it may say of every account when it was
answered for. -/
structure Stamps (S : Setting) : Prop where
  stamp : ∀ g b user moment, (S.scope g b).stamp user moment
  lapses : ∀ duration, S.lapses duration

/-- What a gateway leaves unanswered. -/
def Fault.outage : Fault → Prop
  | .silent _ | .unreadable _ => True
  | _ => False

/-- What the services raise of themselves is nothing that a gateway leaves unanswered. -/
theorem Fault.not_outage (e : Fault) (he : e.plain = true) : ¬Setting.Fault.outage e := by
  cases e <;> simp_all [Setting.Fault.outage, Fault.plain]

/-- A setting in which the services raise nothing that a gateway leaves unanswered. -/
def Quiet (S : Setting) : Prop := ∀ e, S.fault e → ¬Fault.outage e

/-- How a question ends: where it is left unanswered, with nothing but the moment gone by. -/
def Answered (S : Setting) (m : Memory) :
    Memory → Except Fault (α × Memory) → Store → Store → Prop :=
  ending (fun g p b v => S.Inside g p.2 b v)
    (fun g e b v => S.loud.Failed g e b ∧ (Fault.outage e → S.Inside g m b v))

theorem Inside.outage (α : Type) (h : S.Inside g m b v) (e : Fault) :
    S.Answered (α := α) m g (.error e) b v :=
  ⟨h.loud.fail trivial, fun _ => h⟩

/-- The refusal of a key is written down, and raised. -/
theorem refused_meets (tenant : Option ℕ) (user : ℕ) (level : LogLevel) (message : LogMessage)
    (e : Fault) (h : S.Inside g m b v) :
    (do
      record tenant user level message
      commit
      raise e : Db α).Meets S.contract (ending (fun _ _ _ _ => False) (fun g e' b v =>
        S.loud.Failed g e' b ∧ (Fault.outage e' → e' = e ∧ S.Inside g m b v))) g m b v := by
  have c : Change (S.scope g b) v { v with logs := v.logs ++ [⟨tenant, user, level, message⟩] } :=
    .aside rfl rfl rfl rfl rfl rfl rfl rfl rfl
  have raised : ∀ {g m' : Memory} {e' : Fault} {b v : Store}, S.Inside g m' b v →
      ¬Fault.outage e' → S.loud.Failed g e' b ∧ (Fault.outage e' → e' = e ∧ S.Inside g m b v) :=
    fun h he => ⟨h.loud.fail trivial, fun ho => absurd ho he⟩
  have h := h.change c
  simp only [record, persist, commit, meets_bind, meets_execute, meets_attempt, ending_ok]
  refine flush_meets (fun subs => ?_) ?_
  · have h := h.flushed subs
    rw [ending_ok, ending_ok, meets_publish]
    refine ⟨_, S.guar h.shows h.path 0 S.prompt, S.waits h.shows, fun t ht => ?_⟩
    have h := h.publish ht
    rw [ending_ok, meets_bind, meets_bind]
    refine flush_meets (fun subs => ?_) (raised (h.remember {}) (by simp [Fault.outage]))
    have h := h.flushed subs
    rw [ending_ok, meets_publish]
    refine ⟨_, S.guar h.shows h.path 0 S.prompt, S.waits h.shows, fun t ht => ?_⟩
    have h : S.Inside _ m _ _ := (h.publish ht).remember {}
    exact ⟨h.loud.fail trivial, fun _ => ⟨rfl, h⟩⟩
  · exact raised h.expire (by simp [Fault.outage])

/-- What a session writes is published before the time goes by. -/
theorem elapse_meets {post : Memory → Except Fault (Unit × Memory) → Store → Store → Prop}
    (h : S.Inside g m b v) {duration : ℕ} (hd : S.lapses duration)
    (hp : ∀ t, S.Inside m m t t → post m (.ok ((), m)) t t) :
    (elapse duration).Meets S.contract post g m b v := by
  rw [elapse, meets_bind, meets_execute, ending_ok, meets_publish]
  exact ⟨m, S.guar h.shows h.path duration hd, S.waits h.shows,
    fun t ht => hp t (h.restart hd ht)⟩

theorem elapse_keeps {duration : ℕ} (hd : S.lapses duration) : S.Keeps (elapse duration) :=
  fun _ _ _ _ h => elapse_meets h hd fun _ h => h

theorem against_answered (hS : S.Able) (ht : S.Stamps) (hq : S.Quiet) (G : Gateway)
    (integration : Integration) (user : User) (h : S.Inside g m b v) :
    (against G integration user).Meets S.contract (S.Answered m) g m b v := by
  rw [against, meets_bind, now, meets_query, ending_ok, meets_bind]
  refine elapse_meets h (ht.lapses _) fun t h => ?_
  rw [ending_ok]
  cases (G.answer integration.id user.id v.clock).2 with
  | rateLimited seconds =>
    rw [meets_bind]
    exact elapse_meets h (ht.lapses _) fun t h => Inside.outage ℕ h _
  | refused =>
    refine (refused_meets _ _ _ _ _ h).mono ?_
    rintro g (e | ⟨a, m'⟩) b v hk
    · exact ⟨hk.1, fun he => (hk.2 he).2⟩
    · exact hk.elim
  | silent text => exact Inside.outage ℕ h _
  | held held =>
    simp only [meets_bind, meets_query, meets_execute, ending_ok]
    have h := h.change (.stamp user.id t.clock (ht.stamp m t _ _))
    refine (apply_keeps hS integration user held true _ _ _ _ _ h).mono ?_
    rintro g (e | ⟨a, m'⟩) b v hk
    · exact ⟨⟨hk.base, trivial, hk.shows⟩, fun he => absurd he (hq e hk.fault)⟩
    · exact hk

theorem reconcileAccount_answered (hS : S.Able) (ht : S.Stamps) (hq : S.Quiet) (G : Gateway)
    (integration : Integration) (user : User) (h : S.Inside g m b v) :
    (reconcileAccount G integration user).Meets S.contract (S.Answered m) g m b v := by
  unfold reconcileAccount
  refine meets_ite.mpr ⟨fun _ => Inside.outage ℕ h _, fun _ => ?_⟩
  exact against_answered hS ht hq G integration user h

theorem reconcileAccount_keeps (hS : S.Able) (ht : S.Stamps) (hq : S.Quiet) (G : Gateway)
    (integration : Integration) (user : User) :
    S.loud.Keeps (reconcileAccount G integration user) := by
  intro g m b v h
  refine (reconcileAccount_answered hS ht hq G integration user h.quiet).mono ?_
  rintro g (e | ⟨a, m⟩) b v hk
  · exact hk.1
  · exact hk.loud

/-- The sweep goes on from what a question left unanswered. -/
theorem sweepEach_keeps (hS : S.Able) (ht : S.Stamps) (hq : S.Quiet) (G : Gateway) (deadline : ℕ)
    (accounts : List (ℕ × ℕ)) (unreadable : List ℕ) :
    S.loud.Keeps (sweepEach G deadline accounts unreadable) := by
  induction accounts generalizing unreadable with
  | nil => exact keeps_pure _
  | cons account rest ih =>
    refine Keeps.bind (keeps_query _) fun moment => keeps_ite (keeps_pure _) ?_
    refine keeps_ite (ih unreadable) ?_
    refine Keeps.bind (keeps_query _) fun o => Keeps.bind (keeps_require rfl o) fun integration => ?_
    refine Keeps.bind (keeps_query _) fun o => Keeps.bind (keeps_require rfl o) fun user => ?_
    have hrest : ∀ touched : ℕ × List (ℕ × ℕ) → ℕ × List (ℕ × ℕ), S.loud.Keeps (do
        let others ← sweepEach G deadline rest unreadable
        pure (touched others)) := fun _ => Keeps.bind (ih unreadable) fun _ => keeps_pure _
    refine Keeps.bind ?_ fun asked => ?_
    · intro g m b v h
      rw [meets_attempt, meets_bind]
      refine (reconcileAccount_answered hS ht hq G integration user h.quiet).mono ?_
      rintro g (e | ⟨a, m'⟩) b v hk
      · rw [ending_error, ending_error]
        split
        · exact (hk.2 trivial).loud
        · exact (hk.2 trivial).loud
        · exact hk.1
      · exact hk.loud
    · cases asked with
      | unreadable => exact Keeps.bind (ih _) fun _ => keeps_pure _
      | silent => exact keeps_ite (Keeps.bind (elapse_keeps (ht.lapses _)) fun _ => hrest _) (hrest _)
      | touched changes =>
        exact keeps_ite (Keeps.bind (elapse_keeps (ht.lapses _)) fun _ => hrest _) (hrest _)

theorem reconcileStale_keeps (hS : S.Able) (ht : S.Stamps) (hq : S.Quiet) (G : Gateway) :
    S.loud.Keeps (reconcileStale G) :=
  Keeps.bind (keeps_query _) fun _ => Keeps.bind (keeps_query _) fun _ =>
    sweepEach_keeps hS ht hq G _ _ _

end Setting
end FastKit
