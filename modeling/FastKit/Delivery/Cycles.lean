import FastKit.Delivery.Keeps

/-! # A cycle keeps to the changes

From the movement of credits up to the passes: whoever opens a grant opens it under the
name and the reservation a change asks for, and what it delivers is written for it.
-/

namespace FastKit
open Transaction Transaction.Program

namespace Setting
variable {α : Type} {S : Setting} {g m : Memory} {b v : Store}

/-- How a program ends that committed last: on a fresh segment of which `R` holds. -/
def Fresh (S : Setting) (R : Memory → α → Memory → Store → Prop) :
    Memory → Except Fault (α × Memory) → Store → Store → Prop :=
  ending (fun g p b v => b = v ∧ S.Inside g p.2 b v ∧ R g p.1 p.2 v) (fun g e b _ => S.Failed g e b)

theorem Fresh.kept {R : Memory → α → Memory → Store → Prop} {c : Db α}
    (hc : c.Meets S.contract (S.Fresh R) g m b v) : c.Meets S.contract S.Kept g m b v := by
  refine hc.mono ?_
  rintro g (e | ⟨a, m⟩) b v h
  · exact h
  · exact h.2.1

theorem fresh_error {R : Memory → α → Memory → Store → Prop} (g : Memory) (e : Fault) (b v : Store)
    (h : S.Failed g e b) : S.Fresh R g (.error e) b v := h

theorem meets_bind_fresh {β : Type} {c : Db α} {f : α → Db β}
    {R : Memory → α → Memory → Store → Prop}
    {post : Memory → Except Fault (β × Memory) → Store → Store → Prop}
    (hc : c.Meets S.contract (S.Fresh R) g m b v)
    (herr : ∀ g e b v, S.Failed g e b → post g (.error e) b v)
    (hf : ∀ a g m v, S.Inside g m v v → R g a m v → (f a).Meets S.contract post g m v v) :
    (c >>= f).Meets S.contract post g m b v := by
  refine hc.bind ?_ (fun g e b v h => herr g e b v h)
  rintro g a m b v ⟨rfl, h, hR⟩
  exact hf a g m b h hR

/-- What a commit leaves: a segment that starts with what the session has in hand. -/
def Starts (a : Agenda) (R : Store → Prop) (g : Memory) (_ : Unit) (m : Memory) (v : Store) :
    Prop := g = m ∧ m.agenda = a ∧ R v

theorem publish_fresh {R : Store → Prop} (h : S.Inside g m b v) (hR : R v)
    (stable : ∀ s t, Path .any s t → R s → R t) :
    publish.Meets S.contract (S.Fresh (Starts m.agenda R)) g m b v := by
  rw [meets_publish]
  exact ⟨m, S.guar h.shows h.path 0 S.prompt, S.waits h.shows, fun t ht =>
    ⟨rfl, h.publish ht, rfl, rfl, stable _ _ (S.rely ht) hR⟩⟩

/-- What holds of the view and no change takes back holds after a commit. -/
theorem commit_fresh {R : Store → Prop} (h : S.Inside g m b v) (hR : R v)
    (stable : ∀ s t, Path .any s t → R s → R t) :
    commit.Meets S.contract (S.Fresh (Starts m.agenda R)) g m b v := by
  refine meets_bind_within (flush_within h) fresh_error ?_
  rintro ⟨⟩ _ v' hp h ⟨rfl, -⟩
  exact publish_fresh h (stable _ _ hp.any hR) stable

theorem record_keeps (tenant : Option ℕ) (user : ℕ) (level : LogLevel) (message : LogMessage) :
    S.Keeps (record tenant user level message) :=
  Keeps.bind (keeps_beside {}) fun _ => persist_keeps

/-- A session may take a grant in hand, or what a retry pass lists, wherever it stands. -/
structure Lenient (S : Setting) : Prop where
  agenda : ∀ {g b m m'}, m'.agenda.due = m.agenda.due → m'.agenda.event = m.agenda.event →
    m'.plans = m.plans → m'.benefits = m.benefits → S.shows g b m → S.shows g b m'

/-- What a session takes in hand leaves everything else it remembers. -/
structure Takes (m m' : Memory) : Prop where
  benefits : m'.benefits = m.benefits := by rfl
  plans : m'.plans = m.plans := by rfl
  purchases : m'.purchases = m.purchases := by rfl
  due : m'.agenda.due = m.agenda.due := by rfl
  event : m'.agenda.event = m.agenda.event := by rfl

theorem Inside.lenient (h : S.Inside g m b v) (hL : S.Lenient) {m' : Memory} (hm : Takes m m') :
    S.Inside g m' b v :=
  ⟨h.base, h.path, hm.benefits ▸ h.copies, hm.purchases ▸ h.orders,
    hL.agenda hm.due hm.event hm.plans hm.benefits h.shows⟩

theorem takes_takeUp (written : Option (BenefitGrant × Bool)) (m : Memory) :
    Takes m (m.takeUp written) := by
  unfold Memory.takeUp
  split
  · split_ifs <;> exact {}
  · exact {}

theorem takeUp_grant {grant : BenefitGrant} (h : grant.status = .processing) (m : Memory) :
    (m.takeUp (some (grant, true))).agenda.grant = some (grant.id, true) := by
  simp [Memory.takeUp, h, Memory.setGrant]

/-- What a session knows once the row of a cycle is settled: the row, and where it opened
the row for delivery, that it has it in hand. -/
def Settled (grant : ℕ → BenefitGrant) (P : Store → Prop) (g : Memory)
    (written : BenefitGrant × Bool) (m : Memory) (v : Store) : Prop :=
  g = m ∧ KnownGrant written.1 v ∧ (written.2 = true → (∃ id, written.1 = grant id) ∧
    (written.1.status = .processing → m.agenda.grant = some (written.1.id, true))) ∧ P v

/-- The row of a cycle, whoever wrote it, is there when the commit is over. -/
theorem settled_fresh (hL : S.Lenient) {grant : ℕ → BenefitGrant} {P : Store → Prop}
    (h : S.Inside g m b v) (opened : ∀ id, Opened v (grant id))
    (allowed : ∀ id, (S.scope g b).grant (grant id)) (hP : P v)
    (stable : ∀ s t, Path .any s t → P s → P t) :
    (settled grant).Meets S.contract (S.Fresh (Settled grant P)) g m b v := by
  refine meets_bind_within (insertOrRead_within h (fun _ _ => rfl) ?_) fresh_error ?_
  · intro subs row t ht
    obtain rfl := (Table.insert_eq_some ht).1
    exact .grant ht ⟨(opened _).key, (opened _).benefit⟩ (allowed _)
  · rintro o m v' hp h ⟨hmem, -⟩
    refine meets_bind_within (c := remember (Memory.takeUp o))
      (R := fun _ m' v'' => v'' = v' ∧ m' = m.takeUp o)
      ⟨rfl, rfl, .refl, h.lenient hL (takes_takeUp o m), rfl, rfl⟩ fresh_error ?_
    rintro ⟨⟩ _ _ - h ⟨rfl, rfl⟩
    refine meets_bind_fresh
      (commit_fresh (R := fun s => (∀ row flag, o = some (row, flag) → KnownGrant row s) ∧ P s) h
        ⟨fun row flag ho => ⟨row, (hmem row flag ho).1, rfl⟩, stable _ _ hp.any hP⟩
        (fun s t hst hs => ⟨fun row flag ho => (hs.1 row flag ho).path hst, stable _ _ hst hs.2⟩))
      fresh_error ?_
    rintro ⟨⟩ g m' v h ⟨rfl, ha, hR⟩
    refine (require_reads (by simp) o h).mono ?_
    rintro g' (e | ⟨⟨row, flag⟩, m''⟩) b v hk
    · exact hk
    · obtain ⟨rfl, rfl, -, h, rfl, rfl, rfl⟩ := hk
      refine ⟨rfl, h, rfl, hR.1 row flag rfl, ?_, hR.2⟩
      rintro rfl
      exact ⟨(hmem row true rfl).2.1 rfl, fun hs => by rw [ha]; exact takeUp_grant hs m⟩

/-- The schedule of a benefit may be moved in every segment. -/
def Moves (S : Setting) (id : ℕ) : Prop := ∀ g b r r', r.id = id → (S.scope g b).benefit r r'

theorem advance_within {benefit : SubscriptionBenefit} (grant : BenefitGrant)
    (hm : S.Moves benefit.id) (h : S.Inside g m b v) : (advance benefit grant).Meets S.contract
      (S.Within g b v fun _ m' v' => m'.agenda = m.agenda ∧ v'.grants = v.grants) g m b v := by
  unfold advance
  split_ifs
  · refine meets_bind_reads (query_reads _ h) within_error fun moment m₁ h hn => ?_
    obtain ⟨-, rfl⟩ := hn
    refine meets_bind_within (writeBenefits_within (by intro b; rfl) ?_ h) within_error ?_
    · intro r _ hr
      rw [Bool.and_eq_true, Bool.and_eq_true, beq_iff_eq] at hr
      exact hm _ _ _ _ hr.1.1
    · rintro ⟨⟩ _ _ hp h ⟨rfl, rfl⟩
      refine meets_bind_reads (refreshBenefit_reads _ h) within_error fun row m h hr => ?_
      obtain ⟨-, -, rfl⟩ := hr
      exact ⟨rfl, rfl, hp, h, rfl, rfl⟩
  · exact ⟨rfl, rfl, .refl, h, rfl, rfl⟩

theorem advance_keeps {benefit : SubscriptionBenefit} (hm : S.Moves benefit.id)
    (grant : BenefitGrant) : S.Keeps (advance benefit grant) := fun _ _ _ _ h =>
  Within.kept (advance_within grant hm h)

/-- A name a benefit's door gives the slot of a cycle. -/
def Names (benefit : SubscriptionBenefit) (key : CycleKey) (scheduledAt : ℕ) : Prop :=
  if benefit.cadence.interval.isSome then
    key = cycleKey scheduledAt ∨ (0 < benefit.cycle ∧ key = .activation benefit.cycle)
  else key = .activation benefit.cycle

/-- A grant of a benefit the store has, under a name of its doors and with no reservation,
is one a change may open. -/
theorem opened_grantFor {benefit : SubscriptionBenefit} {key : CycleKey} {scheduledAt moment : ℕ}
    {reservation : Option UserBenefitKey} {id : ℕ} (hb : Known benefit v)
    (hn : Names benefit key scheduledAt)
    (hr : ∀ k, reservation = some k → k.2 = benefit.benefitId ∧ benefit.cadence = .oncePerUser ∧
      alreadyHeld k.1 benefit.benefitId k v = false) :
    Opened v (grantFor benefit key scheduledAt moment reservation id) := by
  obtain ⟨row, hrow, hp⟩ := hb
  have hid : row.id = benefit.id := congrArg (·.id) hp
  have hbid : row.benefitId = benefit.benefitId := congrArg (·.benefitId) hp
  have hcad : row.cadence = benefit.cadence := congrArg (·.cadence) hp
  refine ⟨rfl, row, hrow, hid, ?_, ?_⟩
  · unfold Named
    rw [hcad]
    exact hn
  · intro k hk
    rw [hbid, hcad]
    exact hr k hk

/-- What a benefit is owed at a slot may be opened in the segment of a store: the grant as it
starts, or as a cycle nothing was handed out in. -/
def Allows (S : Setting) (id scheduledAt : ℕ) (g : Memory) (b : Store) : Prop :=
  ∀ r : BenefitGrant, r.subscriptionBenefitId = id → r.scheduledAt = scheduledAt →
    r.attempts = 1 → r.startedAt.isSome = true → r.status = .processing ∨ r.status = .skipped →
    (S.scope g b).grant r

theorem skip_fresh (hL : S.Lenient) {benefit : SubscriptionBenefit} {key : CycleKey}
    {scheduledAt moment : ℕ} {reason : String} (h : S.Inside g m b v) (hb : Known benefit v)
    (hn : Names benefit key scheduledAt) (ha : S.Allows benefit.id scheduledAt g b)
    (hm : S.Moves benefit.id) :
    (skip benefit (grantFor benefit key scheduledAt moment none) reason).Meets S.contract
      (S.Fresh fun _ _ _ _ => True) g m b v := by
  refine meets_bind_reads (query_reads _ h) fresh_error fun now m h _ => ?_
  refine meets_bind_within (advance_within _ hm h) fresh_error ?_
  rintro ⟨⟩ m v' hp h -
  have hb' : Known benefit v' := hb.path hp.any
  refine meets_bind_fresh (settled_fresh hL (P := fun _ => True) h (fun id => ?_)
    (fun id => ha _ rfl rfl rfl rfl (.inr rfl)) trivial (fun _ _ _ h => h)) fresh_error ?_
  · have ho : Opened v' (grantFor benefit key scheduledAt moment none id) :=
      opened_grantFor hb' hn (by simp)
    exact ⟨ho.key, ho.benefit⟩
  · rintro ⟨written, flag⟩ g m v h -
    exact ⟨rfl, h, trivial⟩

/-- A grant as its delivery rewrites it: under its name, with the attempts it had. -/
structure Recast (r y : BenefitGrant) : Prop where
  marks : Marks r y
  attempts : y.attempts = r.attempts
  startedAt : y.startedAt = r.startedAt

theorem drop_within (id : ℕ) (reason : String) (h : S.Inside g m b v)
    (hw : ∀ r ∈ v.grants, r.id = id → ∀ y, Recast r y → y.status = .skipped →
      (S.scope g b).mark r y) :
    (drop id reason).Meets S.contract (S.Within g b v fun _ m' _ => m' = m) g m b v := by
  refine meets_bind_reads (query_reads _ h) within_error fun moment m₁ h hn => ?_
  obtain ⟨-, rfl⟩ := hn
  refine (writeGrant_within id ?_ h ?_).mono ?_
  · exact fun _ => ⟨rfl, .inr rfl⟩
  · exact fun r hr hid => hw r hr hid _ ⟨⟨rfl, .inr rfl⟩, rfl, rfl⟩ rfl
  · rintro g' (e | ⟨a, m'⟩) b' v' hk
    · exact hk
    · obtain ⟨rfl, rfl, hp, hin, rfl, -⟩ := hk
      exact ⟨rfl, rfl, hp, hin, rfl⟩

theorem held_within (userId currencyId : ℕ) (h : S.Inside g m b v) :
    (held userId currencyId).Meets S.contract (S.Within g b v fun row _ _ => row.userId = userId ∧
      row.currencyId = currencyId) g m b v := by
  refine meets_bind_within (insertOrRead_within h (fun _ _ => rfl)
    (fun _ _ _ _ => .aside rfl rfl rfl rfl rfl rfl rfl rfl rfl)) within_error fun o m v' hp h _ => ?_
  simp only [meets_bind, meets_query, ending_ok]
  cases hf : v'.balances.find (heldBy userId currencyId) with
  | none => exact h.fail (S.faults _ (by simp))
  | some row =>
    refine ⟨rfl, rfl, hp, h, ?_⟩
    simpa [heldBy] using Table.find_holds hf

structure Moved (S : Setting) (g : Memory) (b v : Store) (key : IdempotencyKey)
    (grantId : Option ℕ) : Prop where
  paid : Paid v grantId key
  delivers : Delivers (S.scope g b) grantId
  bought : Bought v key

theorem Moved.path {key : IdempotencyKey} {grantId : Option ℕ} (h : S.Moved g b v key grantId)
    {v' : Store} (c : Path (S.scope g b) v v') : S.Moved g b v' key grantId :=
  ⟨h.paid.path c, h.delivers, h.bought.path c⟩

theorem writeMovement_keeps {held : UserBalance} {signed : ℤ} {type : CreditTransactionType}
    {description : Option String} {key : IdempotencyKey} {grantId : Option ℕ}
    (h : S.Inside g m b v) (hp : S.Moved g b v key grantId) :
    (writeMovement .whole held signed type description key grantId).Meets S.contract S.Kept
      g m b v := by
  refine meets_bind_reads (query_reads _ h) kept_error fun inserted m h hi => ?_
  split
  · rename_i e t
    have ht := hi.1.symm
    have c : Change (S.scope g b) v { v with
        transactions := t
        balances := v.balances.modify (heldBy held.userId held.currencyId)
          (fun b => { b with amount := held.amount + signed }) (fun _ => ⟨rfl, rfl⟩) } := by
      obtain rfl := (Table.insert_eq_some ht).1
      exact .movement ht hp.paid hp.delivers hp.bought
    refine meets_bind_within (execute_within h c) kept_error ?_
    rintro ⟨⟩ m v' - h -
    exact meets_bind_keeps (persist_keeps g m b v' h) fun _ g m b v h => h
  · refine meets_bind_keeps (c := rollback) h.expire fun _ g m b v h => ?_
    exact keeps_raise (S.faults _ (by simp)) g m b v h

theorem moveHeld_keeps {userId currencyId : ℕ} {type : CreditTransactionType} {amount : ℤ}
    {description : Option String} {key : IdempotencyKey} {grantId : Option ℕ}
    (h : S.Inside g m b v) (hp : S.Moved g b v key grantId) :
    (moveHeld .whole userId currencyId type amount description key grantId).Meets S.contract S.Kept
      g m b v := by
  refine meets_bind_within (held_within userId currencyId h) kept_error fun row m v' hv h _ => ?_
  refine meets_bind_reads (query_reads _ h) kept_error fun found m h _ => ?_
  cases found with
  | some found => exact meets_bind_keeps (keeps_pure () g m b v' h) fun _ g m b v h => h
  | none =>
    refine meets_bind_reads (c := Discipline.whole.yield (holding userId currencyId))
      (R := fun _ _ => True) ⟨rfl, rfl, .refl, h, rfl, trivial⟩ kept_error fun _ m h _ => ?_
    split
    · rename_i e he
      refine keeps_raise (S.faults _ ?_) g m b v' h
      unfold signedAmount at he
      split at he
      · cases he
      · split at he <;> cases he
        simp
    · split_ifs
      · exact keeps_raise (S.faults _ (by simp)) g m b v' h
      · exact keeps_raise (S.faults _ (by simp)) g m b v' h
      · exact writeMovement_keeps h (hp.path hv)

theorem move_keeps {userId currencyId : ℕ} {type : CreditTransactionType} {amount : ℤ}
    {description : Option String} {key : IdempotencyKey} {grantId : Option ℕ}
    (h : S.Inside g m b v) (hp : S.Moved g b v key grantId) :
    (move .whole userId currencyId type amount description key grantId).Meets S.contract S.Kept
      g m b v := by
  refine meets_bind_reads (query_reads _ h) kept_error fun found m h _ => ?_
  cases found with
  | some found => exact h
  | none =>
    refine meets_bind_reads (R := fun _ _ => True) ⟨rfl, rfl, .refl, h, rfl, trivial⟩ kept_error
      fun _ m h _ => ?_
    refine meets_bind_reads (query_reads _ h) kept_error fun o m h _ => ?_
    refine meets_bind_reads (require_reads (by simp) o h) kept_error fun user m h _ => ?_
    refine meets_bind_reads (query_reads _ h) kept_error fun o m h _ => ?_
    refine meets_bind_reads (require_reads (by simp) o h) kept_error fun currency m h _ => ?_
    split_ifs
    · exact keeps_raise (S.faults _ (by simp)) g m b v h
    · exact moveHeld_keeps h hp

/-- The credits of a product that was just handed over. -/
theorem grantCredits_keeps {userId productId : ℕ} {key : IdempotencyKey} {grantId : Option ℕ}
    (h : S.Inside g m b v) (hp : S.Moved g b v key grantId) (settled : UserProduct) :
    (do
      let product ← require .attributeError
        (← query (·.catalog.products.find? (·.id == productId)))
      match product.creditsCurrencyId with
      | some currencyId =>
        if product.credits ≠ 0 then
          let _ ← move .whole userId currencyId .credit product.credits (some product.name)
            key grantId
      | none => pure ()
      persist
      pure (settled, true) : Db (UserProduct × Bool)).Meets S.contract
      (ending (fun g p b v => S.Inside g p.2 b v ∧ p.1 = (settled, true))
        (fun g e b _ => S.Failed g e b)) g m b v := by
  refine meets_bind_reads (query_reads _ h) (fun _ _ _ _ h => h) fun o m h _ => ?_
  refine meets_bind_reads (require_reads (by simp) o h) (fun _ _ _ _ h => h) fun product m h _ => ?_
  have hrest : ∀ g₁ m₁ b₁ v₁, S.Inside g₁ m₁ b₁ v₁ →
      (do persist; pure (settled, true) : Db (UserProduct × Bool)).Meets S.contract
        (ending (fun g p b v => S.Inside g p.2 b v ∧ p.1 = (settled, true))
          (fun g e b _ => S.Failed g e b)) g₁ m₁ b₁ v₁ := fun g₁ m₁ b₁ v₁ h =>
    meets_bind_inside (persist_keeps g₁ m₁ b₁ v₁ h) (fun _ _ _ _ h => h) fun _ g m b v h => ⟨h, rfl⟩
  split
  · split_ifs
    · exact meets_bind_inside (move_keeps h hp) (fun _ _ _ _ h => h) fun _ => hrest
    · exact hrest g m b v h
  · exact hrest g m b v h

/-- Where a grant finds the product held already, nothing was committed on the way. -/
theorem commerceGrant_meets {userId productId : ℕ} {key : IdempotencyKey}
    {subscriptionId grantId : Option ℕ} (h : S.Inside g m b v) (hp : S.Moved g b v key grantId)
    (hh : HandedOver v grantId productId) :
    (commerceGrant userId productId key subscriptionId none grantId).Meets S.contract
      (ending (fun g' p b' v' => S.Inside g' p.2 b' v' ∧
          (p.1.2 = false → g' = g ∧ b' = b ∧ v'.grants = v.grants)) (fun g e b _ => S.Failed g e b))
      g m b v := by
  refine meets_bind_reads (query_reads _ h) (fun _ _ _ _ h => h) fun moment m h _ => ?_
  refine meets_bind_within (insertOrRead_within h (fun _ _ => rfl) ?_) (fun _ _ _ _ h => h) ?_
  · intro subs row t ht
    obtain rfl := (Table.insert_eq_some ht).1
    exact .product ht hh hp.delivers rfl
  · intro o m v' hv h ho
    refine meets_bind_reads (require_reads (by simp) o h) (fun _ _ _ _ h => h) fun written m h hw => ?_
    obtain ⟨settled, granted⟩ := written
    obtain ⟨-, -, hsame⟩ := ho.1 settled granted hw.1
    dsimp only
    split_ifs with hf
    · refine ⟨h, fun _ => ⟨rfl, rfl, ?_⟩⟩
      obtain ⟨subs, rfl⟩ := hsame (by simpa using hf)
      rfl
    · refine (grantCredits_keeps h (hp.path hv) settled).mono ?_
      rintro g' (e | ⟨a, m'⟩) b' v' hk
      · exact hk
      · obtain ⟨hin, rfl⟩ := hk
        exact ⟨hin, by simp⟩

end Setting
end FastKit
