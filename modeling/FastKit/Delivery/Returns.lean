import FastKit.Delivery.Repeats

/-! # Coming back

A benefit that comes back is scheduled from the moment of its last delivery and not from the
slot that was delivered. It is back in its own schedule where the two walks have met, and the
passes that follow then pay the period it came back in once.
-/

namespace FastKit
open Transaction Transaction.Program

/-- What a benefit granted for its `j`-th slot owes when it comes back: the slot the moment is
in, or the one after it where that one is granted. -/
def owedSlot (every : Interval) (anchor j moment : ℕ) : ℕ :=
  if landing every anchor moment ≤ nthSlot every anchor j then nthSlot every anchor (j + 1)
  else landing every anchor moment

/-- A benefit comes back to its schedule: its date is the slot owed, and the passes that follow
open a grant of that slot alone, once, where it is due. -/
structure ComesBack (every : Interval) (j : ℕ) (s : Store) (b : SubscriptionBenefit) : Prop where
  date : b.nextGrantAt = some (owedSlot every b.anchorAt j s.clock)
  nothing : due s.clock s b = false → ∀ n, paidSince s b.id (pass^[n] s) = []
  once : due s.clock s b = true →
    (∀ n, paidSince s b.id (pass^[n] s) <+: [owedSlot every b.anchorAt j s.clock]) ∧
    ∃ n, ∀ k, n ≤ k → paidSince s b.id (pass^[k] s) = [owedSlot every b.anchorAt j s.clock]

/-- The schedule reckoned from a delivery meets the benefit's own at a slot after the one that
was granted and not after the one owed. -/
def Joins (every : Interval) (anchor j delivered moment : ℕ) : Prop :=
  ∃ m i, nthSlot every delivered (m + 1) = nthSlot every anchor i ∧ j < i ∧
    nthSlot every anchor i ≤ owedSlot every anchor j moment

variable {every : Interval} {anchor j delivered moment start : ℕ} {b : SubscriptionBenefit}

/-- The slot owed is one of the schedule, after the one granted, and the next one is ahead. -/
theorem exists_owedSlot (h : nthSlot every anchor j ≤ moment) :
    ∃ i, owedSlot every anchor j moment = nthSlot every anchor i ∧ j < i ∧
      moment < nthSlot every anchor (i + 1) ∧
      (moment < nthSlot every anchor i → i = j + 1) := by
  have hanchor : anchor ≤ nthSlot every anchor j := nthSlot_strictMono.monotone (Nat.zero_le j)
  obtain ⟨k, hk, hle, hlt⟩ := @existsUnique_landing every _ _ (hanchor.trans h)
  unfold owedSlot
  rw [hk]
  split_ifs with hgranted
  · have hkj : k ≤ j := nthSlot_strictMono.le_iff_le.mp hgranted
    have hnext : nthSlot every anchor (k + 1) ≤ nthSlot every anchor (j + 1) :=
      nthSlot_strictMono.monotone (Nat.succ_le_succ hkj)
    have hafter : nthSlot every anchor (j + 1) < nthSlot every anchor (j + 1 + 1) :=
      nthSlot_strictMono (Nat.lt_succ_self _)
    exact ⟨j + 1, rfl, Nat.lt_succ_self j, by omega, fun _ => rfl⟩
  · refine ⟨k, rfl, nthSlot_strictMono.lt_iff_lt.mp (Nat.lt_of_not_le hgranted), hlt, ?_⟩
    exact fun hm => absurd hle (Nat.not_le_of_lt hm)

/-- A walk from a delivery that reaches the slot owed lands on it. -/
theorem landing_of_reaches {m : ℕ} (h : nthSlot every anchor j ≤ delivered)
    (ht : delivered ≤ moment)
    (hm : nthSlot every delivered (m + 1) = owedSlot every anchor j moment) :
    landing every (addInterval delivered every) moment = owedSlot every anchor j moment := by
  obtain ⟨i, hi, -, hlt, hnext⟩ := exists_owedSlot (h.trans ht)
  have hfirst : addInterval delivered every ≤ nthSlot every delivered (m + 1) := by
    rw [← nthSlot_addInterval]
    exact nthSlot_strictMono.monotone (Nat.zero_le m)
  rw [hi] at hm ⊢
  rcases Nat.lt_or_ge moment (nthSlot every anchor i) with hahead | hdue
  · -- the slot granted still runs, so the walk takes one step and no more
    obtain rfl := hnext hahead
    have htime : nthSlot every anchor j % Calendar.day = delivered % Calendar.day := by
      have hmod : nthSlot every delivered (m + 1) % Calendar.day = delivered % Calendar.day :=
        nthSlot_mod
      rw [nthSlot_mod, ← hmod, hm, nthSlot_mod]
    have hstep := addInterval_le every h htime
    rw [← nthSlot_succ] at hstep
    rw [landing_later (by omega)]
    omega
  · rw [← hm, ← nthSlot_addInterval]
    rw [← hm] at hdue
    refine (landing_eq_iff (by omega)).mpr ⟨?_, ?_⟩
    · rwa [nthSlot_addInterval]
    · rw [nthSlot_addInterval, nthSlot_succ, hm, ← nthSlot_succ]
      exact hlt

theorem joins_iff_reaches (h : nthSlot every anchor j ≤ moment) :
    Joins every anchor j delivered moment ↔
      ∃ m, nthSlot every delivered (m + 1) = owedSlot every anchor j moment := by
  obtain ⟨i, hi, hj, -, -⟩ := exists_owedSlot h
  constructor
  · rintro ⟨m, i', hmeet, -, hle⟩
    rw [hi] at hle ⊢
    have hi' : i' ≤ i := nthSlot_strictMono.le_iff_le.mp hle
    -- from where they meet the two walks are one
    refine ⟨m + (i - i'), ?_⟩
    have hwalk : nthSlot every delivered (m + 1 + (i - i')) =
        nthSlot every anchor (i' + (i - i')) := by
      rw [← nthSlot_nthSlot, hmeet, nthSlot_nthSlot]
    rw [Nat.add_sub_cancel' hi'] at hwalk
    rw [← hwalk]
    congr 1
    omega
  · rintro ⟨m, hm⟩
    exact ⟨m, i, hm.trans hi, hj, hi.ge⟩

section Passes
variable {s t u : Store} {id slot : ℕ}

/-- The passes have not come to the benefit. -/
structure Unserved (id : ℕ) (s t : Store) : Prop where
  clock : t.clock = s.clock
  subscriptions : t.subscriptions = s.subscriptions
  benefit : t.benefits.get id = s.benefits.get id
  grants : ∃ new, t.grants.rows = s.grants.rows ++ new ∧
    ∀ g ∈ new, OfSlot g ∧ g.subscriptionBenefitId ≠ id

/-- The passes paid the benefit its slot, and it is due no more. -/
structure ServedOnce (id slot : ℕ) (s t : Store) : Prop where
  clock : t.clock = s.clock
  grants : ∃ new, t.grants.rows = s.grants.rows ++ new
  paid : paidSince s id t = [slot]
  idle : ∀ b ∈ t.benefits.get id, due s.clock t b = false

theorem Unserved.refl : Unserved id s s :=
  ⟨rfl, rfl, rfl, [], (List.append_nil _).symm, by simp⟩

theorem Unserved.trans (h : Unserved id s t) (h' : Unserved id t u) : Unserved id s u := by
  obtain ⟨new, hrows, hnew⟩ := h.grants
  obtain ⟨later, hrows', hlater⟩ := h'.grants
  refine ⟨h'.clock.trans h.clock, h'.subscriptions.trans h.subscriptions,
    h'.benefit.trans h.benefit, new ++ later, by rw [hrows', hrows, List.append_assoc], ?_⟩
  exact fun g hg => (List.mem_append.mp hg).elim (hnew g) (hlater g)

/-- The turns of other benefits do not come to it. -/
theorem Turned.unserved {j : ℕ} (h : Turned moment j s t) (hj : id ≠ j) : Unserved id s t := by
  obtain ⟨new, hrows, hnew⟩ := h.grown
  refine ⟨?_, ?_, h.others hj, new, hrows, fun g hg => ⟨(hnew g hg).1, ?_⟩⟩
  · cases h with
    | passed => rfl
    | met => exact closedBy_clock
    | paid get resolved free cycled => exact cycled.clock
  · cases h with
    | passed => rfl
    | met => exact closedBy_subscriptions
    | paid get resolved free cycled => exact cycled.subscriptions
  · rw [(hnew g hg).2]
    exact Ne.symm hj

theorem Turns.unserved {ids : List ℕ} (h : Turns moment ids s t) (hid : id ∉ ids) :
    Unserved id s t := by
  induction h with
  | nil => exact .refl
  | cons turn _ ih =>
    rw [List.mem_cons, not_or] at hid
    exact (turn.unserved hid.1).trans (ih hid.2)

/-- A benefit the passes have not come to is due as it was. -/
theorem Unserved.due_eq (h : Unserved id s t) (hid : b.id = id) :
    due moment t b = due moment s b := by
  obtain ⟨new, hrows, hnew⟩ := h.grants
  have hnone : new.any (fun g => g.subscriptionBenefitId == b.id &&
      (g.status == .failed || g.status == .processing)) = false := by
    refine List.any_eq_false.mpr fun g hg => ?_
    simp [hid, (hnew g hg).2]
  simp only [due, h.subscriptions, hrows, List.any_append, hnone, Bool.or_false]

theorem paidSince_unserved (h : Unserved id t u) {new : List BenefitGrant}
    (hrows : t.grants.rows = s.grants.rows ++ new) : paidSince s id u = paidSince s id t := by
  obtain ⟨later, hlater, hothers⟩ := h.grants
  have hall : u.grants.rows = s.grants.rows ++ (new ++ later) := by
    rw [hlater, hrows, List.append_assoc]
  rw [paidSince_added hall, paidSince_added hrows, slotsOf_append,
    slotsOf_others fun g hg => (hothers g hg).2, List.append_nil]

theorem Unserved.unpaid (h : Unserved id s t) : paidSince s id t = [] := by
  obtain ⟨new, hrows, hnew⟩ := h.grants
  rw [paidSince_added hrows, slotsOf_others fun g hg => (hnew g hg).2]

theorem ServedOnce.unserved (h : ServedOnce id slot s t) (h' : Unserved id t u) :
    ServedOnce id slot s u := by
  obtain ⟨new, hrows⟩ := h.grants
  obtain ⟨later, hlater, -⟩ := h'.grants
  refine ⟨h'.clock.trans h.clock, ⟨new ++ later, ?_⟩, ?_, fun b hb => ?_⟩
  · rw [hlater, hrows, List.append_assoc]
  · rw [paidSince_unserved h' hrows, h.paid]
  · rw [h'.benefit] at hb
    rw [h'.due_eq (Table.id_of_get hb)]
    exact h.idle b hb

/-- A benefit that is due no more is listed no more. -/
theorem ServedOnce.passed (h : ServedOnce id slot s t) (hcompletes : Completes t) :
    ServedOnce id slot s (pass t) := by
  have hturns := hcompletes.turns
  rw [h.clock] at hturns
  refine h.unserved (hturns.unserved fun hlisted => ?_)
  obtain ⟨b, hb, hdue⟩ := due_of_mem_dueIds hlisted
  rw [h.idle b hb] at hdue
  cases hdue

/-- A benefit with a date ahead is not due. -/
theorem due_ahead (h : b.nextGrantAt.any (· ≤ moment) = false) : due moment t b = false := by
  rw [due, h, Bool.and_false, Bool.false_and, Bool.false_and]

/-- Nor is one with a grant that waits. -/
theorem due_waiting {g : BenefitGrant} (hg : g ∈ t.grants.rows) (howner : g.subscriptionBenefitId = b.id)
    (h : g.status.advances = false) :
    due moment t b = false := by
  have hany : t.grants.rows.any (fun g => g.subscriptionBenefitId == b.id &&
      (g.status == .failed || g.status == .processing)) = true := by
    refine List.any_eq_true.mpr ⟨g, hg, ?_⟩
    rw [howner, beq_self_eq_true, Bool.true_and]
    cases hs : g.status with
    | processing | failed => rfl
    | completed | skipped =>
      rw [hs] at h
      cases h
  rw [due, hany, Bool.not_true, Bool.and_false]

section Turn
variable (hget : s.benefits.get id = some b) (hdue : due s.clock s b = true)
  (hevery : b.cadence.interval = some every) (hnext : b.nextGrantAt = some slot)
  (hahead : s.clock < addInterval slot every)
  (hfree : ∀ g ∈ s.grants, g.grantKey ≠ (id, cycleKey slot))
include hget hdue hevery hnext hahead hfree

/-- The turn of the benefit pays the one slot it owes. -/
theorem Unserved.turned (h : Unserved id s t) (turn : Turned s.clock id t u) :
    ServedOnce id slot s u := by
  obtain ⟨new, hrows, hnew⟩ := h.grants
  have hid : b.id = id := Table.id_of_get hget
  have hget' : t.benefits.get id = some b := h.benefit.trans hget
  have hactive : b.status = .active := by
    simp only [due, Bool.and_eq_true, beq_iff_eq] at hdue
    exact hdue.1.1.1.1
  have hle : slot ≤ s.clock := by
    simp only [due, hnext, Bool.and_eq_true, Option.any_some, decide_eq_true_eq] at hdue
    exact hdue.1.1.2
  have hone := owes_single b.missedCyclePolicy hle hahead
  cases turn with
  | passed get resolved =>
    obtain rfl := Option.some.inj (hget'.symm.trans get)
    obtain ⟨_, hnone, -⟩ | ⟨-, hnil, -⟩ := owes_step hevery hnext hle resolved
    · cases hnone
    · rw [hone] at hnil
      cases hnil
  | @met _ _ found grant get resolved hmem key =>
    obtain rfl := Option.some.inj (hget'.symm.trans get)
    obtain ⟨_, hslot, -, hcons⟩ | ⟨hnone, -⟩ := owes_step hevery hnext hle resolved
    · obtain rfl := Option.some.inj hslot
      obtain ⟨rfl, -⟩ := List.cons.inj (hone.symm.trans hcons)
      rw [← Table.mem_rows, hrows, List.mem_append] at hmem
      rcases hmem with hold | hnewer
      · exact absurd (hid ▸ key) (hfree grant hold)
      · -- what the passes opened so far is of other benefits
        obtain ⟨hof, howner⟩ := hnew grant hnewer
        rw [OfSlot, key] at hof
        exact absurd ((congrArg Prod.fst hof).symm.trans hid) howner
    · cases hnone
  | @paid _ _ found grant _ get resolved free cycled =>
    obtain rfl := Option.some.inj (hget'.symm.trans get)
    obtain ⟨_, hslot, -, hcons⟩ | ⟨hnone, -⟩ := owes_step hevery hnext hle resolved
    · obtain rfl := Option.some.inj hslot
      obtain ⟨rfl, -⟩ := List.cons.inj (hone.symm.trans hcons)
      obtain ⟨-, howner, hscheduled, hcycle⟩ := cycled.ofSlot
      have hgrants : u.grants.rows = s.grants.rows ++ (new ++ [grant]) := by
        rw [cycled.grants, hrows, List.append_assoc]
      refine ⟨cycled.clock.trans h.clock, ⟨_, hgrants⟩, ?_, fun r hr => ?_⟩
      · rw [paidSince_added hgrants, slotsOf_append, slotsOf_others fun g hg => (hnew g hg).2]
        simp [slotsOf, howner, hid, hscheduled]
      · rw [cycled.benefits, closedBy] at hr
        split_ifs at hr with hadvances
        · -- the schedule moved past the moment
          have hmoves : advances b grant b = true := by simp [advances, hcycle, hactive]
          rw [get_advanced, hget', Option.map_some, if_pos hmoves] at hr
          obtain rfl := Option.some.inj hr
          refine due_ahead ?_
          rw [hevery, hscheduled, Option.map_some, Option.any_some, decide_eq_false_iff_not]
          exact Nat.not_le_of_lt hahead
        · -- the grant waits on the retry pass
          obtain rfl := Option.some.inj (hget'.symm.trans hr)
          exact due_waiting (by simp [hgrants]) howner (by simpa using hadvances)
    · cases hnone

/-- A pass that lists the benefit pays it. -/
theorem Unserved.pass (h : Unserved id s t) (hcompletes : Completes t)
    (hlisted : id ∈ dueIds s.clock t) : ServedOnce id slot s (pass t) := by
  have hturns := hcompletes.turns
  rw [h.clock] at hturns
  have hnodup := nodup_dueIds s.clock t
  obtain ⟨before, after, hids⟩ := List.append_of_mem hlisted
  rw [hids] at hturns hnodup
  obtain ⟨-, hafter, hapart⟩ := List.nodup_append.mp hnodup
  obtain ⟨v, hfirst, hrest⟩ := hturns.split
  cases hrest with
  | cons turn turns =>
    have hbefore : id ∉ before := fun hmem => hapart id hmem id List.mem_cons_self rfl
    exact ((h.trans (hfirst.unserved hbefore)).turned hget hdue hevery hnext hahead hfree
      turn).unserved (turns.unserved (List.nodup_cons.mp hafter).1)

/-- After any number of passes the benefit waits for its turn or was paid once. -/
theorem passes_serve (hpasses : ∀ n, Completes (FastKit.pass^[n] s)) (n : ℕ) :
    Unserved id s (FastKit.pass^[n] s) ∨ ServedOnce id slot s (FastKit.pass^[n] s) := by
  induction n with
  | zero => exact .inl .refl
  | succ n ih =>
    rw [passes_succ]
    rcases ih with h | h
    · by_cases hlisted : id ∈ dueIds s.clock (FastKit.pass^[n] s)
      · exact .inr (h.pass hget hdue hevery hnext hahead hfree (hpasses n) hlisted)
      · have hturns := (hpasses n).turns
        rw [h.clock] at hturns
        exact .inl (h.trans (hturns.unserved hlisted))
    · exact .inr (h.passed (hpasses n))

/-- Once a pass listed the benefit, it was paid. -/
theorem passes_served (hpasses : ∀ n, Completes (FastKit.pass^[n] s)) {n k : ℕ}
    (hlisted : id ∈ dueIds s.clock (FastKit.pass^[n] s)) (hk : n < k) :
    ServedOnce id slot s (FastKit.pass^[k] s) := by
  induction k, hk using Nat.le_induction with
  | base =>
    rw [passes_succ]
    rcases passes_serve hget hdue hevery hnext hahead hfree hpasses n with h | h
    · exact h.pass hget hdue hevery hnext hahead hfree (hpasses n) hlisted
    · exact h.passed (hpasses n)
  | succ k _ ih =>
    rw [passes_succ]
    exact ih.passed (hpasses k)

end Turn

/-- The passes leave a benefit that is not due as it is. -/
theorem passes_leave (hget : s.benefits.get id = some b) (hdue : due s.clock s b = false)
    (hpasses : ∀ n, Completes (FastKit.pass^[n] s)) (n : ℕ) :
    Unserved id s (FastKit.pass^[n] s) := by
  induction n with
  | zero => exact .refl
  | succ n ih =>
    have hturns := (hpasses n).turns
    rw [passes_succ]
    refine ih.trans (hturns.unserved fun hlisted => ?_)
    obtain ⟨r, hr, hlists⟩ := due_of_mem_dueIds hlisted
    obtain rfl := Option.some.inj ((ih.benefit.trans hget).symm.trans hr)
    rw [ih.clock, ih.due_eq (Table.id_of_get hget), hdue] at hlists
    cases hlists

end Passes

/-- A benefit that comes back with a delivery behind it is scheduled from that delivery. -/
theorem resume_eq (hc : b.cadence = .recurring every) (hs : b.status ≠ .active)
    (hlast : b.lastGrantAt = some delivered) : resume b start moment = { b with
      status := .active
      nextGrantAt := some (landing every (addInterval delivered every) moment) } := by
  rw [resume, if_neg hs, hc, hlast]

/-- A recurring benefit granted for a slot of its schedule comes back to that schedule exactly
where the schedule reckoned from the delivery has joined it by the slot owed, and no grant has the
name of that slot where it is due. -/
theorem resume_owes_its_cycle {s : Store} (hc : b.cadence = .recurring every)
    (hs : b.status ≠ .active) (hlast : b.lastGrantAt = some delivered)
    (hd : nthSlot every b.anchorAt j ≤ delivered) (ht : delivered ≤ s.clock)
    (hget : s.benefits.get b.id = some (resume b start s.clock))
    (hpasses : ∀ n, Completes (pass^[n] s))
    (hcomes : due s.clock s (resume b start s.clock) = true →
      ∃ n, b.id ∈ dueIds s.clock (pass^[n] s)) :
    ComesBack every j s (resume b start s.clock) ↔ Joins every b.anchorAt j delivered s.clock ∧
      (due s.clock s (resume b start s.clock) = true → ∀ g ∈ s.grants,
        g.grantKey ≠ (b.id, cycleKey (owedSlot every b.anchorAt j s.clock))) := by
  rw [joins_iff_reaches (hd.trans ht)]
  rw [resume_eq hc hs hlast] at hget hcomes ⊢
  constructor
  · rintro ⟨hdate, -, honce⟩
    obtain ⟨m, hm⟩ := exists_landing every (addInterval delivered every) s.clock
    refine ⟨⟨m, ?_⟩, fun hdue => ?_⟩
    · rw [← nthSlot_addInterval, ← hm]
      exact Option.some.inj hdate
    · obtain ⟨-, n, hn⟩ := honce hdue
      obtain ⟨new, hrows, hof⟩ := grown_passes hpasses n
      exact unnamed_of_paid hrows hof (by rw [hn n le_rfl]; exact List.mem_cons_self)
  · rintro ⟨⟨m, hm⟩, hfree⟩
    have hland := landing_of_reaches hd ht hm
    rw [hland] at hget hcomes hfree ⊢
    refine ⟨rfl, fun hno n => (passes_leave hget hno hpasses n).unpaid, fun hdue => ?_⟩
    obtain ⟨i, hi, -, hahead, -⟩ := exists_owedSlot (hd.trans ht)
    rw [nthSlot_succ, ← hi] at hahead
    have hevery : b.cadence.interval = some every := congrArg BenefitCadence.interval hc
    refine ⟨fun n => ?_, ?_⟩
    · rcases passes_serve hget hdue hevery rfl hahead (hfree hdue) hpasses n with h | h
      · exact h.unpaid ▸ List.nil_prefix
      · exact h.paid ▸ List.prefix_rfl
    · obtain ⟨n, hlisted⟩ := hcomes hdue
      exact ⟨n + 1, fun k hk =>
        (passes_served hget hdue hevery rfl hahead (hfree hdue) hpasses hlisted hk).paid⟩

/-- A delivery in the instant of its slot keeps the schedule. -/
theorem joins_of_on_time (h : nthSlot every anchor j ≤ moment) :
    Joins every anchor j (nthSlot every anchor j) moment := by
  obtain ⟨i, hi, hj, -, -⟩ := exists_owedSlot h
  refine ⟨0, j + 1, ?_, Nat.lt_succ_self j, ?_⟩
  · rw [nthSlot_succ, nthSlot_zero, nthSlot_succ]
  · rw [hi]
    exact nthSlot_strictMono.monotone hj

/-- A row of the store is of a monthly benefit that was paused and came back, whose first slot was
delivered at the moment, and which the pass lists. -/
def Returned (delivered : ℕ) (s : Store) (r : SubscriptionBenefit) : Prop :=
  r.nextGrantAt = (resume { r with status := .paused } s.clock s.clock).nextGrantAt ∧
    r.status = .active ∧ r.cadence = .recurring everyMonth ∧ r.lastGrantAt = some delivered ∧
    r.anchorAt ≤ delivered ∧ delivered ≤ s.clock ∧ due s.clock s r = true ∧
    r.id ∈ dueIds s.clock s ∧ Settles 1 s

instance (delivered : ℕ) (s : Store) (r : SubscriptionBenefit) : Decidable (Returned delivered s r) := by
  unfold Returned
  infer_instance

theorem Returned.resumed {s : Store} {r : SubscriptionBenefit} (h : Returned delivered s r) :
    resume { r with status := .paused } s.clock s.clock = r := by
  obtain ⟨hnext, hactive, hc, hlast, -⟩ := h
  have hback : resume { r with status := .paused } s.clock s.clock = { r with
      status := .active
      nextGrantAt := some (landing everyMonth (addInterval delivered everyMonth) s.clock) } :=
    resume_eq hc (by simp) hlast
  rw [hback] at hnext ⊢
  cases r
  cases hnext
  cases hactive
  rfl

/-- The calls that pay the first month `late` after the purchase, pause it, and bring it back in the
third month. -/
def pausing (late : ℕ) : List Call :=
  [.apply Shop.integration Shop.buyer [Shop.purchase] false none, .tick late, .processDue,
    .apply Shop.integration Shop.buyer [Shop.paused] false none, .tick (70 * Calendar.day),
    .apply Shop.integration Shop.buyer [Shop.purchase] false none]

def pausingTurns : List ℕ :=
  List.replicate 3 0 ++ [1] ++ List.replicate 4 2 ++ List.replicate 3 3 ++ [4] ++ List.replicate 3 5

/-- Delivered on time, it comes back to the third month in the third month, and is paid it once. -/
theorem resume_owes_its_cycle_on_time : ∃ (s : Store) (b : SubscriptionBenefit),
    due s.clock s b = true ∧ ComesBack everyMonth 0 s b := by
  obtain ⟨trace, q, -, r, hr, hreturned, hfree⟩ :=
    Pool.exists_run (fun _ _ _ => True)
      (sessions (pausing 0) (Shop.new (Shop.catalog [Shop.later]))) pausingTurns
      (fun q => ∃ r ∈ q.store.benefits, Returned r.anchorAt q.store r ∧ ∀ g ∈ q.store.grants,
        g.grantKey ≠ (r.id, cycleKey (owedSlot everyMonth r.anchorAt 0 q.store.clock)))
      (by decide +kernel)
  have hresumed := hreturned.resumed
  obtain ⟨-, -, hc, hlast, hd, ht, hdue, hlisted, hsettles⟩ := hreturned
  refine ⟨q.store, r, hdue, ?_⟩
  rw [← hresumed]
  refine (resume_owes_its_cycle (b := { r with status := .paused }) (j := 0) hc (by simp) hlast
    (hd.trans' (nthSlot_zero ..).le) ht ?_ (fun n => (hsettles.succeeds n).1) fun _ => ⟨0, hlisted⟩).mpr
    ⟨joins_of_on_time ((nthSlot_zero ..).le.trans ht), fun _ => hfree⟩
  exact (Table.get_of_mem hr).trans (congrArg some hresumed.symm)

/-- Delivered an hour late, it comes back an hour off its schedule. -/
theorem resume_leaves_its_schedule : ¬∀ (calls : List Call) (s : Store) (trace : List (Turn Store))
    (q : Sessions) (every : Interval) (b : SubscriptionBenefit) (j delivered start : ℕ),
    Undelivered s → Pool.Run (fun _ _ _ => True) (sessions calls s) trace q →
    b.cadence = .recurring every → b.status ≠ .active → b.lastGrantAt = some delivered →
    nthSlot every b.anchorAt j ≤ delivered → delivered ≤ q.store.clock →
    q.store.benefits.get b.id = some (resume b start q.store.clock) →
    (∀ n, Succeeds (pass^[n] q.store)) → b.id ∈ dueIds q.store.clock q.store →
    ComesBack every j q.store (resume b start q.store.clock) := by
  intro h
  obtain ⟨trace, q, run, r, hr, hreturned, hoff⟩ :=
    Pool.exists_run (fun _ _ _ => True)
      (sessions (pausing (3600 * Calendar.second)) (Shop.new (Shop.catalog [Shop.later]))) pausingTurns
      (fun q => ∃ r ∈ q.store.benefits,
        Returned (Shop.opening + 3600 * Calendar.second) q.store r ∧
        r.nextGrantAt ≠ some (owedSlot everyMonth r.anchorAt 0 q.store.clock)) (by decide +kernel)
  have hresumed := hreturned.resumed
  obtain ⟨-, -, hc, hlast, hd, ht, -, hlisted, hsettles⟩ := hreturned
  refine hoff ?_
  have hdate := (h _ _ trace q everyMonth { r with status := .paused } 0 _ q.store.clock ⟨rfl, rfl, rfl⟩
    run hc (by simp) hlast (hd.trans' (nthSlot_zero ..).le) ht ?_ hsettles.succeeds hlisted).date
  · rwa [hresumed] at hdate
  · exact (Table.get_of_mem hr).trans (congrArg some hresumed.symm)

end FastKit
