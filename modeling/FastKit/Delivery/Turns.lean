import FastKit.Delivery.Alone

/-! # A due pass nobody runs beside

A pass takes up the benefits it listed one after the other. Each turn moves the schedule of its
benefit past what it missed, meets the grant of the slot, or opens one and delivers it.
-/

namespace FastKit
open Transaction Transaction.Program

variable {g m : Memory} {b v s t : Store} {benefit : SubscriptionBenefit} {key : CycleKey} {slot moment id : ℕ}
  {grant : BenefitGrant}

/-- The store with the schedule moved where the grant is closed. -/
def closedBy (benefit : SubscriptionBenefit) (grant : BenefitGrant) (s : Store) : Store :=
  if grant.status.advances then advanced benefit grant s else s

theorem closedBy_grants : (closedBy benefit grant s).grants = s.grants := by
  unfold closedBy
  split_ifs <;> rfl

theorem closedBy_clock : (closedBy benefit grant s).clock = s.clock := by
  unfold closedBy
  split_ifs <;> rfl

theorem closedBy_subscriptions :
    (closedBy benefit grant s).subscriptions = s.subscriptions := by
  unfold closedBy
  split_ifs <;> rfl

/-- The schedule a grant leaves hangs on the schedules and the clock alone. -/
theorem closedBy_benefits (hclock : t.clock = s.clock) (hb : t.benefits = s.benefits) :
    (closedBy benefit grant t).benefits = (closedBy benefit grant s).benefits := by
  unfold closedBy
  split_ifs
  · simp only [advanced, hclock, hb]
  · exact hb

/-- What a turn that opened the grant of a slot leaves. -/
structure Cycled (benefit : SubscriptionBenefit) (key : CycleKey) (slot : ℕ) (s : Store)
    (grant : BenefitGrant) (t : Store) : Prop where
  clock : t.clock = s.clock
  subscriptions : t.subscriptions = s.subscriptions
  grants : t.grants.rows = s.grants.rows ++ [grant]
  name : ∃ id, grant.name = (grantFor benefit key slot 0 none id).name
  benefits : t.benefits = (closedBy benefit grant s).benefits

/-- How a program ends after which nothing is unpublished, as `R` says. -/
def Ends {α : Type} (H : Memory → Prop) (R : α → Store → Prop) :
    Memory → Except Fault (α × Memory) → Store → Store → Prop :=
  ending (fun _ p b v => H p.2 ∧ b = v ∧ R p.1 v) (fun _ _ _ _ => True)

/-- What a session remembers that a cycle of the benefit leaves, where `I` is about the schedules
alone and goes on holding where the cycle moves one. -/
structure Cycles (H : Memory → Prop) (I : Store → Prop) (benefit : SubscriptionBenefit) : Prop
    extends Carries H I where
  setGrant : ∀ {m} (grant : Option (ℕ × Bool)), H m → H (m.setGrant grant)
  aside : ∀ {s t}, t.benefits = s.benefits → I s → I t
  closed : ∀ {s} (grant : BenefitGrant), I s → I (closedBy benefit grant s)

theorem Memory.Bare.cycles : Cycles Memory.Bare (fun _ => True) benefit where
  toCarries := Memory.Bare.carries _
  setGrant := fun grant h => h.setGrant grant
  aside := fun _ _ => trivial
  closed := fun _ _ => trivial

section Cycle
variable {α : Type} {post : Memory → Except Fault (α × Memory) → Store → Store → Prop}
  {H : Memory → Prop} {I : Store → Prop} (hC : Cycles H I benefit)
include hC

theorem Cycles.takeUp (h : H m) (written : Option (BenefitGrant × Bool)) : H (m.takeUp written) := by
  unfold Memory.takeUp
  split
  · split_ifs
    · exact hC.setGrant _ h
    · exact h
  · exact h

theorem advance_lone {f : Unit → Db α} (hm : H m) (hv : I v) (herr : ∀ e v, post g (.error e) b v)
    (h : ∀ m, H m → (f ()).Meets lone post g m b (closedBy benefit grant v)) :
    (advance benefit grant >>= f).Meets lone post g m b v := by
  have hclosed := hC.closed grant hv
  rw [meets_bind]
  unfold advance
  unfold closedBy at h hclosed
  split_ifs with ha
  · rw [if_pos ha] at h hclosed
    change ((do
      let row ← require .invalidRequest ((advanced benefit grant v).benefits.get benefit.id)
      remember (Memory.keepBenefit row)
      pure row : Db SubscriptionBenefit) >>= fun _ => pure ()).Meets lone _ g m b
        (advanced benefit grant v)
    cases hrow : (advanced benefit grant v).benefits.get benefit.id with
    | none => exact herr _ _
    | some row => exact h _ (hC.keepBenefit hm hclosed (Table.mem_of_get hrow))
  · rw [if_neg ha] at h
    exact h m hm

theorem commit_lone {f : Unit → Db α} (hm : H m)
    (h : ∀ m, H m → (f ()).Meets lone post g m v v) :
    (commit >>= f).Meets lone post g m b v := commit_clean (hC.clean hm) (h _ (hC.flushed hm))

/-- The row of a cycle is inserted and published, unless one answers for it already. -/
theorem settled_lone {grant : ℕ → BenefitGrant} (hm : H m)
    (hfree : ∀ g ∈ v.grants, g.grantKey ≠ (grant 0).grantKey) :
    (settled grant).Meets lone (Ends H fun written u =>
      ((grant 0).userBenefitKey.isSome = true ∧ written.2 = false ∧ u = v) ∨
      (written.2 = true ∧
        ∃ t, v.grants.insert grant = some (written.1, t) ∧ u = { v with grants := t })) g m b v := by
  have hfound : ∀ row, v.grants.find (fun g => g.grantKey == (grant 0).grantKey ||
      ((grant 0).userBenefitKey.isSome && g.userBenefitKey == (grant 0).userBenefitKey)) = some row →
      (grant 0).userBenefitKey.isSome = true := by
    intro row hrow
    have hread := Table.find_holds hrow
    have hkey := hfree row (Table.mem_of_find hrow)
    simp only [Bool.or_eq_true, Bool.and_eq_true, beq_iff_eq, hkey, false_or] at hread
    exact hread.1
  simp only [settled, insertOrRead, meets_bind, meets_query, ending_ok]
  cases hfind : v.grants.find (fun g => g.grantKey == (grant 0).grantKey ||
      ((grant 0).userBenefitKey.isSome && g.userBenefitKey == (grant 0).userBenefitKey)) with
  | some row =>
    rw [meets_pure, ending_ok, meets_bind, meets_remember, ending_ok]
    refine commit_lone hC (hC.takeUp hm (some (row, false))) fun m hm => ?_
    exact ⟨hm, rfl, .inl ⟨hfound row hfind, rfl, rfl⟩⟩
  | none =>
    rw [meets_bind]
    refine Setting.flush_clean (hC.clean hm) ?_
    have hm := hC.flushed hm
    simp only [ending_ok, meets_bind, meets_query]
    split
    · rename_i row t hi
      rw [meets_bind, meets_execute, ending_ok, meets_pure, ending_ok, meets_bind, meets_remember, ending_ok]
      refine commit_lone hC (hC.takeUp hm (some (row, true))) fun m hm => ?_
      exact ⟨hm, rfl, .inr ⟨rfl, t, hi, rfl⟩⟩
    · rw [meets_query, ending_ok, hfind, Option.map_none, meets_bind, meets_remember, ending_ok]
      refine commit_lone hC (hC.takeUp hm none) fun m hm => ?_
      exact trivial

theorem skip_lone {reason : String} (hm : H m) (hv : I v)
    (hfree : ∀ g ∈ v.grants, g.grantKey ≠ (benefit.id, key)) :
    (skip benefit (grantFor benefit key slot moment none) reason).Meets lone
      (Ends H fun grant t => Cycled benefit key slot v grant t) g m b v := by
  unfold skip
  rw [now, meets_bind, meets_query, ending_ok]
  refine advance_lone hC hm hv (fun _ _ => trivial) fun m hm => ?_
  refine (settled_lone hC hm ?_).bind ?_ fun _ _ _ _ _ => trivial
  · rw [closedBy_grants]
    exact hfree
  · rintro g ⟨written, ours⟩ m b u ⟨hm, rfl, ⟨hkey, -⟩ | ⟨-, t, hi, rfl⟩⟩
    · cases hkey
    · rw [closedBy_grants] at hi
      obtain ⟨hrow, -, -, hrows, -⟩ := Table.insert_eq_some hi
      obtain rfl := hrow
      exact ⟨hm, rfl, closedBy_clock, closedBy_subscriptions, hrows, ⟨v.grants.next, rfl⟩, rfl⟩

/-- A cycle of the benefit is opened, unless its user holds it by another grant. -/
theorem openCycle_lone {userBenefitKey : Option UserBenefitKey} (hm : H m) (hv : I v)
    (hfree : ∀ g ∈ v.grants, g.grantKey ≠ (benefit.id, key)) :
    (openCycle benefit key slot moment userBenefitKey).Meets lone
      (Ends H fun grant t => (userBenefitKey.isSome = true ∧ t = v) ∨
        Cycled benefit key slot v grant t) g m v v := by
  have hsame : ∀ t, t = v → I t := fun t ht => ht ▸ hv
  refine Leaves.meets_bind (leaves_policyAllows (hC.toCarries.mono hsame) benefit) hm rfl rfl
    (fun _ _ _ _ _ _ => trivial) ?_
  rintro allowed g m b u hm hb hu
  rw [hb, hu]
  split_ifs
  · refine (skip_lone hC hm hv hfree).mono ?_
    rintro g (e | ⟨grant, m⟩) b u h
    · exact trivial
    · exact ⟨h.1, h.2.1, .inr h.2.2⟩
  · refine (settled_lone hC hm hfree).bind ?_ fun _ _ _ _ _ => trivial
    rintro g ⟨written, ours⟩ m b u ⟨hm, rfl, ⟨hkey, hours, hu⟩ | ⟨hours, t, hi, rfl⟩⟩
    · obtain rfl : ours = false := hours
      exact ⟨hm, rfl, .inl ⟨hkey, hu⟩⟩
    obtain rfl : ours = true := hours
    obtain ⟨hrow, -, -, hrows, -⟩ := Table.insert_eq_some hi
    dsimp only
    rw [if_neg (by decide)]
    have hstart : Delivering v v.grants.rows written { v with grants := t } :=
      ⟨rfl, rfl, rfl, written, rfl, hrows⟩
    have hdelivering : ∀ t, Delivering v v.grants.rows written t → I t :=
      fun t ht => hC.aside ht.benefits hv
    refine Leaves.meets_bind (leaves_deliver (hC.toCarries.mono hdelivering)
      (Delivering.stands _ _ _) benefit) hm hstart hstart (fun _ _ _ _ _ _ => trivial)
      fun _ g m b u hm _ hu => ?_
    simp only [grantOf, meets_bind, meets_query, ending_ok]
    cases hget : u.grants.get written.id with
    | none => exact trivial
    | some grant =>
      obtain ⟨g₀, hname, hrows⟩ := hu.grants
      -- the row read again is the one being delivered
      obtain rfl : grant = g₀ := by
        refine Table.eq_of_id (Table.mem_of_get hget) ?_ ?_
        · rw [← Table.mem_rows, hrows]
          simp
        · exact (Table.id_of_get hget).trans (congrArg (·.1) hname).symm
      rw [meets_require_some, ending_ok]
      refine advance_lone hC hm (hdelivering u hu) ?_ fun m hm => ?_
      · exact fun _ _ => trivial
      refine commit_lone hC hm fun m hm => ⟨hC.setGrant none hm, rfl, .inr ?_⟩
      refine ⟨closedBy_clock.trans hu.clock, closedBy_subscriptions.trans hu.subscriptions, ?_,
        ⟨v.grants.next, ?_⟩, closedBy_benefits hu.clock hu.benefits⟩
      · rw [closedBy_grants, hrows]
      · rw [hname]
        exact (congrArg BenefitGrant.name hrow).trans rfl

end Cycle

/-- What becomes of a cycle that is run. -/
inductive Ran (benefit : SubscriptionBenefit) (key : CycleKey) (slot : ℕ) (s : Store) :
    Store → Prop where
  /-- The user holds the benefit by a grant of another cycle. -/
  | held (once : benefit.cadence = .oncePerUser) : Ran benefit key slot s s
  /-- The cycle has a grant. -/
  | met {grant : BenefitGrant} (found : grant ∈ s.grants)
      (named : grant.grantKey = (benefit.id, key)) :
      Ran benefit key slot s (closedBy benefit grant s)
  | opened {grant : BenefitGrant} {t : Store}
      (free : ∀ g ∈ s.grants, g.grantKey ≠ (benefit.id, key))
      (cycled : Cycled benefit key slot s grant t) : Ran benefit key slot s t

theorem runCycle_lone {H : Memory → Prop} {I : Store → Prop} (hC : Cycles H I benefit) (hm : H m)
    (hv : I v) : (runCycle benefit key slot).Meets lone (Ends H fun _ t => Ran benefit key slot v t)
      g m v v := by
  rw [runCycle, meets_bind, meets_query, ending_ok]
  cases hfind : v.grants.find (fun g => g.grantKey == (benefit.id, key)) with
  | some existing =>
    refine advance_lone hC hm hv ?_ fun m hm => ?_
    · exact fun _ _ => trivial
    refine commit_lone hC hm fun m hm => ?_
    exact ⟨hm, rfl, .met (Table.mem_of_find hfind) (by simpa using Table.find_holds hfind)⟩
  | none =>
    have hfree : ∀ g ∈ v.grants, g.grantKey ≠ (benefit.id, key) := fun g hg => by
      simpa using Table.find_none hfind hg
    have hsame : Carries H (· = v) := hC.toCarries.mono fun t ht => ht ▸ hv
    rw [now, meets_bind, meets_query, ending_ok, userBenefitKeyOf]
    by_cases honce : benefit.cadence = .oncePerUser
    · rw [if_pos honce]
      refine Leaves.meets_bind (Leaves.bind (leaves_subscriptionOf hsame _) fun subscription =>
        leaves_pure (some (subscription.userId, benefit.benefitId))) hm rfl rfl
        (fun _ _ _ _ _ _ => trivial) ?_
      rintro o g m b u hm hb hu
      rw [hb, hu]
      have hopen : ∀ g m o, H m → (openCycle benefit key slot v.clock o).Meets lone
          (Ends H fun _ t => Ran benefit key slot v t) g m v v := by
        intro g m o hm
        refine (openCycle_lone hC hm hv hfree).mono ?_
        rintro g (e | ⟨grant, m⟩) b u h
        · exact trivial
        · refine ⟨h.1, h.2.1, ?_⟩
          rcases h.2.2 with ⟨-, rfl⟩ | hcycled
          · exact .held honce
          · exact .opened hfree hcycled
      cases o with
      | none => exact hopen g m none hm
      | some userBenefitKey =>
        refine Leaves.meets_bind (Leaves.bind (leaves_subscriptionOf hsame _) fun subscription =>
          leaves_query _) hm rfl rfl (fun _ _ _ _ _ _ => trivial) ?_
        rintro held g m b u hm hb hu
        rw [hb, hu]
        split_ifs
        · refine (skip_lone hC hm hv hfree).mono ?_
          rintro g (e | ⟨grant, m⟩) b u h
          · exact trivial
          · exact ⟨h.1, h.2.1, .opened hfree h.2.2⟩
        · exact hopen g m (some userBenefitKey) hm
    · rw [if_neg honce]
      refine (openCycle_lone hC hm hv hfree).mono ?_
      rintro g (e | ⟨grant, m⟩) b u h
      · exact trivial
      · refine ⟨h.1, h.2.1, ?_⟩
        rcases h.2.2 with ⟨hkey, -⟩ | hcycled
        · cases hkey
        · exact .opened hfree hcycled

/-- One turn of a pass, for a benefit whose slot it resolved. -/
inductive Turned (moment id : ℕ) (s : Store) : Store → Prop where
  /-- What was missed is not made up for. -/
  | passed {benefit moved : SubscriptionBenefit} (get : s.benefits.get id = some benefit)
      (resolved : resolveDueSlot benefit moment = .ok (none, moved)) :
      Turned moment id s { s with
        benefits := s.benefits.modify (·.id == id)
          (fun b => { b with nextGrantAt := moved.nextGrantAt }) (fun _ => ⟨rfl, rfl⟩) }
  /-- The slot has a grant. -/
  | met {benefit moved : SubscriptionBenefit} {slot : ℕ} {grant : BenefitGrant}
      (get : s.benefits.get id = some benefit)
      (resolved : resolveDueSlot benefit moment = .ok (some slot, moved)) (found : grant ∈ s.grants)
      (key : grant.grantKey = (benefit.id, cycleKey slot)) :
      Turned moment id s (closedBy benefit grant s)
  | paid {benefit moved : SubscriptionBenefit} {slot : ℕ} {grant : BenefitGrant} {t : Store}
      (get : s.benefits.get id = some benefit)
      (resolved : resolveDueSlot benefit moment = .ok (some slot, moved))
      (free : ∀ g ∈ s.grants, g.grantKey ≠ (benefit.id, cycleKey slot))
      (cycled : Cycled benefit (cycleKey slot) slot s grant t) : Turned moment id s t

theorem Ran.turned {moved : SubscriptionBenefit} (hget : s.benefits.get id = some benefit)
    (hr : resolveDueSlot benefit moment = .ok (some slot, moved))
    (h : Ran benefit (cycleKey slot) slot s t) : Turned moment id s t := by
  cases h with
  | held once =>
    have hrecurs := Setting.interval_of_resolveDueSlot hr
    rw [once] at hrecurs
    cases hrecurs
  | met found named => exact .met hget hr found named
  | opened free cycled => exact .paid hget hr free cycled

/-- The turns of a pass, one benefit of its list after the other. -/
inductive Turns (moment : ℕ) : List ℕ → Store → Store → Prop where
  | nil {s : Store} : Turns moment [] s s
  | cons {id : ℕ} {rest : List ℕ} {s t u : Store} (turn : Turned moment id s t)
      (turns : Turns moment rest t u) : Turns moment (id :: rest) s u

theorem processEach_lone {ids : List ℕ} (hm : m.Bare) : (processEach moment ids).Meets lone
    (Ends Memory.Bare fun _ t => Turns moment ids v t) g m v v := by
  induction ids generalizing g m v with
  | nil => exact ⟨hm, rfl, .nil⟩
  | cons id rest ih =>
    have hbare : (m.setDue (some (moment, rest))).Bare := ⟨hm.clean, hm.benefits⟩
    have hnone : (m.setDue (some (moment, rest))).benefits.find? (·.id == id) = none := by
      rw [hbare.benefits]
      rfl
    simp only [processEach, benefitOf, meets_bind, meets_remember, meets_remembered, ending_ok,
      hnone, meets_query]
    cases hget : v.benefits.get id with
    | none => exact trivial
    | some benefit =>
      rw [meets_require_some, ending_ok]
      cases hr : resolveDueSlot benefit moment with
      | error e => exact trivial
      | ok answer =>
        obtain ⟨answer, moved⟩ := answer
        cases answer with
        | none =>
          simp only [writeBenefits]
          rw [meets_bind, meets_execute, ending_ok]
          have hC : Cycles Memory.Bare (fun _ => True) benefit := Memory.Bare.cycles
          refine commit_lone hC hbare fun m hm => (ih hm).mono ?_
          rintro g (e | ⟨a, m⟩) b u h
          · exact trivial
          · exact ⟨h.1, h.2.1, .cons (.passed hget hr) h.2.2⟩
        | some slot =>
          rw [meets_bind]
          refine (runCycle_lone Memory.Bare.cycles hbare trivial).mono ?_
          rintro g (e | ⟨grant, m⟩) b t h
          · exact trivial
          · obtain ⟨hm, rfl, hran⟩ := h
            have hlet : ({ m with subscriptions := [] } : Memory).Bare :=
              ⟨fun _ h => absurd h List.not_mem_nil, hm.benefits⟩
            simp only [ending_ok, letGo, meets_bind, meets_remember]
            refine (ih hlet).mono ?_
            rintro g (e | ⟨a, m⟩) b u h
            · exact trivial
            · exact ⟨h.1, h.2.1, .cons (hran.turned hget hr) h.2.2⟩

/-- The store after a due pass of a node that is alone. -/
def pass (s : Store) : Store := (processDue.run Memory.empty s s).2.1

/-- A pass that ends makes the turns of the benefits that were due as it started. -/
theorem turns_pass {grants : List ℕ} {m : Memory}
    (h : (processDue.run Memory.empty s s).1 = .ok (grants, m)) :
    Turns s.clock (dueIds s.clock s) s (pass s) := by
  have hmeets : processDue.Meets lone (Ends Memory.Bare fun _ t => Turns s.clock (dueIds s.clock s) s t)
      Memory.empty Memory.empty s s := by
    simp only [processDue, now, meets_bind, meets_query, ending_ok]
    exact processEach_lone Memory.Bare.empty
  obtain ⟨g, hends⟩ := run_of_meets trivial (fun _ _ => rfl) hmeets
  unfold pass
  rw [h] at hends
  obtain ⟨-, hbase, hturns⟩ := hends
  rw [hbase]
  exact hturns

end FastKit
