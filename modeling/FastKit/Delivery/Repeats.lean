import FastKit.Delivery.CatchUp
import FastKit.Delivery.Due
import FastKit.Delivery.Turns
import Mathlib.Algebra.Order.BigOperators.Group.List

/-! # Due passes that follow one another

A node alone makes one due pass after the other at one moment. As long as every delivery
succeeds, each turn closes the first slot its benefit owes or moves the schedule past all of them,
unless the slot has a grant of another cycle, which is met again by every pass.
-/

namespace FastKit
open Transaction Transaction.Program

/-- The slots a benefit owes at a moment. -/
def owed (moment : ℕ) (b : SubscriptionBenefit) : List ℕ :=
  match b.cadence.interval, b.nextGrantAt with
  | some every, some due => owes b.missedCyclePolicy every due moment
  | _, _ => []

/-- How far the schedule of a benefit is behind a moment. -/
def behind (moment : ℕ) (b : SubscriptionBenefit) : ℕ :=
  (b.nextGrantAt.map (moment + 1 - ·)).getD 0

section Slots
variable {every : Interval} {due moment slot fuel : ℕ} {b : SubscriptionBenefit}

theorem owed_eq (hevery : b.cadence.interval = some every) (hdue : b.nextGrantAt = some due) :
    owed moment b = owes b.missedCyclePolicy every due moment := by
  rw [owed, hevery, hdue]

theorem le_of_mem_slotsBy (h : slot ∈ slotsBy every moment fuel due) : due ≤ slot := by
  induction fuel generalizing due with
  | zero => exact absurd h List.not_mem_nil
  | succ fuel ih =>
    rw [slotsBy] at h
    split_ifs at h
    · rcases List.mem_cons.mp h with rfl | h
      · exact le_rfl
      · exact (Nat.le_of_lt (lt_addInterval due every)).trans (ih h)
    · exact absurd h List.not_mem_nil

/-- Two slots a day apart have different names. -/
theorem cycleKey_ne {x y : ℕ} (h : x + Calendar.day ≤ y) : cycleKey x ≠ cycleKey y := by
  intro heq
  have hsecond : x / Calendar.second = y / Calendar.second := by simpa [cycleKey] using heq
  have h1 := Nat.lt_div_mul_add (a := y) (b := Calendar.second) (by decide)
  have h2 := Nat.div_mul_le_self x Calendar.second
  have h3 : Calendar.second ≤ Calendar.day := by decide
  rw [← hsecond] at h1
  omega

theorem slotsBy_named :
    (slotsBy every moment fuel due).Pairwise (fun x y => cycleKey x ≠ cycleKey y) := by
  induction fuel generalizing due with
  | zero => exact List.Pairwise.nil
  | succ fuel ih =>
    rw [slotsBy]
    split_ifs
    · refine List.pairwise_cons.mpr ⟨fun y hy => ?_, ih⟩
      exact cycleKey_ne ((add_day_le_addInterval due every).trans (le_of_mem_slotsBy hy))
    · exact List.Pairwise.nil

/-- The slots owed have names of their own. -/
theorem owed_named (moment : ℕ) (b : SubscriptionBenefit) :
    (owed moment b).Pairwise (fun x y => cycleKey x ≠ cycleKey y) := by
  unfold owed
  split
  · rename_i every due _ _
    by_cases hlater : moment < due
    · rw [owes_later hlater]
      exact List.Pairwise.nil
    · have hle := Nat.le_of_not_lt hlater
      cases b.missedCyclePolicy with
      | catchUp =>
        rw [owes_catchUp]
        exact slotsBy_named
      | latestOnly =>
        rw [owes_latestOnly hle]
        exact List.pairwise_singleton _ _
      | skip =>
        rw [owes_skip hle]
        split_ifs
        · exact List.pairwise_singleton _ _
        · exact List.Pairwise.nil
  · exact List.Pairwise.nil

theorem owed_later (h : b.nextGrantAt.any (· ≤ moment) = false) : owed moment b = [] := by
  unfold owed
  split
  · rename_i every due _ hdue
    refine owes_later ?_
    simpa [hdue] using h
  · rfl

theorem behind_lt {next : ℕ} {b' : SubscriptionBenefit} (hdue : b.nextGrantAt = some due)
    (h : due ≤ moment) (hnext : b'.nextGrantAt = some next) (hlt : due < next) :
    behind moment b' < behind moment b := by
  simp only [behind, hdue, hnext, Option.map_some, Option.getD_some]
  omega

end Slots

section Rows
variable {α κ : Type} [Keyed α κ] {t u : Table α} {new : List α} {r : α}

/-- What rows were added to a table it lacks. -/
theorem lacks_of_added (h : u.rows = t.rows ++ new) (hr : r ∈ new) : t.Lacks r := fun a ha =>
  ((List.pairwise_append.mp (h ▸ u.apart)).2.2 a ha r hr).1

/-- The rows a table lacks are the ones added to it. -/
theorem filter_added (h : u.rows = t.rows ++ new) (p : α → Bool) :
    u.select (fun r => decide (t.Lacks r) && p r) = new.filter p := by
  have hold : t.rows.filter (fun r => decide (t.Lacks r) && p r) = [] := by
    refine List.filter_eq_nil_iff.mpr fun r hr => ?_
    have hlacks : ¬t.Lacks r := fun h => h r hr rfl
    simp [hlacks]
  rw [Table.select, h, List.filter_append, hold, List.nil_append]
  refine List.filter_congr fun r hr => ?_
  simp [lacks_of_added h hr]

end Rows

variable {s t u : Store} {new : List BenefitGrant} {ids : List ℕ} {moment id : ℕ}

/-- A grant of a slot is named by it. -/
def OfSlot (g : BenefitGrant) : Prop :=
  g.grantKey = (g.subscriptionBenefitId, cycleKey g.scheduledAt)

theorem Cycled.ofSlot {benefit : SubscriptionBenefit} {slot : ℕ} {grant : BenefitGrant}
    (h : Cycled benefit (cycleKey slot) slot s grant t) : OfSlot grant ∧ grant.subscriptionBenefitId = benefit.id ∧
      grant.scheduledAt = slot ∧ grant.cycle = benefit.cycle := by
  obtain ⟨id, hname⟩ := h.name
  have howner : grant.subscriptionBenefitId = benefit.id := congrArg (·.2.1) hname
  have hkey : grant.grantKey = (benefit.id, cycleKey slot) := congrArg (·.2.2.1) hname
  have hslot : grant.scheduledAt = slot := congrArg (·.2.2.2.2.2) hname
  refine ⟨?_, howner, hslot, congrArg (·.2.2.2.1) hname⟩
  rw [OfSlot, hkey, howner, hslot]

/-- A turn adds grants of slots to the ones there are. -/
theorem Turned.grown (h : Turned moment id s t) :
    ∃ new, t.grants.rows = s.grants.rows ++ new ∧
      ∀ g ∈ new, OfSlot g ∧ g.subscriptionBenefitId = id := by
  cases h with
  | passed get resolved => exact ⟨[], (List.append_nil _).symm, by simp⟩
  | met get resolved found key => exact ⟨[], by rw [closedBy_grants, List.append_nil], by simp⟩
  | paid get resolved free cycled =>
    refine ⟨_, cycled.grants, fun g hg => ?_⟩
    rw [List.mem_singleton.mp hg]
    exact ⟨cycled.ofSlot.1, cycled.ofSlot.2.1.trans (Table.id_of_get get)⟩

theorem Turns.grown (h : Turns moment ids s t) :
    ∃ new, t.grants.rows = s.grants.rows ++ new ∧
      ∀ g ∈ new, OfSlot g ∧ g.subscriptionBenefitId ∈ ids := by
  induction h with
  | nil => exact ⟨[], (List.append_nil _).symm, by simp⟩
  | cons turn _ ih =>
    obtain ⟨new, hrows, hnew⟩ := turn.grown
    obtain ⟨later, hrows', hlater⟩ := ih
    refine ⟨new ++ later, by rw [hrows', hrows, List.append_assoc], fun g hg => ?_⟩
    rcases List.mem_append.mp hg with hg | hg
    · exact ⟨(hnew g hg).1, List.mem_cons.mpr (.inl (hnew g hg).2)⟩
    · exact ⟨(hlater g hg).1, List.mem_cons_of_mem _ (hlater g hg).2⟩

theorem closedBy_others {benefit : SubscriptionBenefit} {grant : BenefitGrant}
    (h : id ≠ benefit.id) : (closedBy benefit grant s).benefits.get id = s.benefits.get id := by
  unfold closedBy
  split_ifs
  · rw [get_advanced]
    cases hr : s.benefits.get id with
    | none => rfl
    | some r =>
      have hid : r.id = id := Table.id_of_get hr
      have hno : advances benefit grant r = false := by simp [advances, hid, h]
      rw [Option.map_some, hno]
      rfl
  · rfl

/-- A turn leaves the schedules of the other benefits. -/
theorem Turned.others (h : Turned moment id s t) {j : ℕ} (hj : j ≠ id) :
    t.benefits.get j = s.benefits.get j := by
  cases h with
  | @passed benefit moved get resolved =>
    have hstill : Still fun b : SubscriptionBenefit => { b with nextGrantAt := moved.nextGrantAt } :=
      fun _ => ⟨rfl, rfl⟩
    rw [Table.get_modify hstill]
    cases hr : s.benefits.get j with
    | none => rfl
    | some r =>
      have hid : r.id = j := Table.id_of_get hr
      rw [Option.map_some, if_neg (by simp [hid, hj])]
  | met get resolved found key => exact closedBy_others fun h => hj (h.trans (Table.id_of_get get))
  | paid get resolved free cycled =>
    rw [cycled.benefits]
    exact closedBy_others fun h => hj (h.trans (Table.id_of_get get))

theorem Turns.others (h : Turns moment ids s t) {j : ℕ} (hj : j ∉ ids) :
    t.benefits.get j = s.benefits.get j := by
  induction h with
  | nil => rfl
  | cons turn _ ih =>
    rw [List.mem_cons, not_or] at hj
    exact (ih hj.2).trans (turn.others hj.1)

theorem Turns.split {rest : List ℕ} (h : Turns moment (ids ++ rest) s u) :
    ∃ t, Turns moment ids s t ∧ Turns moment rest t u := by
  induction ids generalizing s with
  | nil => exact ⟨s, .nil, h⟩
  | cons id ids ih =>
    cases h with
    | cons turn turns =>
      obtain ⟨t, hfirst, hrest⟩ := ih turns
      exact ⟨t, .cons turn hfirst, hrest⟩

/-- A pass ends without an error. -/
def Completes (s : Store) : Prop := (processDue.run Memory.empty s s).1.toBool = true

instance : Decidable (Completes s) := inferInstanceAs (Decidable (_ = _))

/-- A pass ends without an error, and every delivery it opened succeeded. -/
def Succeeds (s : Store) : Prop :=
  Completes s ∧ ∀ g ∈ (pass s).grants, s.grants.Lacks g → g.status = .completed

instance : Decidable (Succeeds s) := inferInstanceAs (Decidable (_ ∧ _))

theorem Completes.turns (h : Completes s) : Turns s.clock (dueIds s.clock s) s (pass s) := by
  unfold Completes at h
  cases hrun : (processDue.run Memory.empty s s).1 with
  | error e =>
    rw [hrun] at h
    cases h
  | ok answer => exact turns_pass hrun

/-- The slots paid to a benefit by some grants, in their order. -/
def slotsOf (id : ℕ) (grants : List BenefitGrant) : List ℕ :=
  (grants.filter (·.subscriptionBenefitId == id)).map (·.scheduledAt)

theorem slotsOf_append (id : ℕ) (grants grants' : List BenefitGrant) :
    slotsOf id (grants ++ grants') = slotsOf id grants ++ slotsOf id grants' := by
  rw [slotsOf, List.filter_append, List.map_append, slotsOf, slotsOf]

theorem slotsOf_others {added : List BenefitGrant}
    (h : ∀ g ∈ added, g.subscriptionBenefitId ≠ id) : slotsOf id added = [] := by
  rw [slotsOf, List.filter_eq_nil_iff.mpr, List.map_nil]
  intro g hg
  simpa using h g hg

/-- The grant closes the slot of the benefit, in the cycle the benefit is in. -/
def Closes (b : SubscriptionBenefit) (slot : ℕ) (g : BenefitGrant) : Prop :=
  g.grantKey = (b.id, cycleKey slot) ∧ g.cycle = b.cycle ∧ g.scheduledAt = slot ∧
    g.status.advances = true

instance (b : SubscriptionBenefit) (slot : ℕ) (g : BenefitGrant) : Decidable (Closes b slot g) :=
  inferInstanceAs (Decidable (_ ∧ _))

/-- No grant closes the slot. -/
def Unpaid (s : Store) (b : SubscriptionBenefit) (slot : ℕ) : Prop :=
  ∀ g ∈ s.grants, ¬Closes b slot g

instance (b : SubscriptionBenefit) (slot : ℕ) : Decidable (Unpaid s b slot) := by
  unfold Unpaid
  infer_instance

/-- A grant with the name of a slot that a due benefit owes closes that slot. -/
def Clear (s : Store) : Prop :=
  ∀ b ∈ s.benefits, due s.clock s b = true → ∀ slot ∈ owed s.clock b, ∀ g ∈ s.grants,
    g.grantKey = (b.id, cycleKey slot) → Closes b slot g

instance : Decidable (Clear s) := by
  unfold Clear
  infer_instance

/-- A benefit as the passes leave it: its schedule alone moved, past the first of the slots it owed,
and it was paid those of them that were unpaid. -/
structure Served (s : Store) (new : List BenefitGrant) (b b' : SubscriptionBenefit) : Prop where
  same : b' = { b with lastGrantAt := b'.lastGrantAt, nextGrantAt := b'.nextGrantAt }
  still : due s.clock s b = false → b' = b ∧ slotsOf b.id new = []
  owed : due s.clock s b = true → b'.nextGrantAt.isSome = true ∧ ∃ past,
    owed s.clock b = past ++ owed s.clock b' ∧ slotsOf b.id new = past.filter (Unpaid s b ·)

/-- How far the passes of a node that is alone came from a store. -/
structure Progress (s : Store) (new : List BenefitGrant) (t : Store) : Prop where
  clock : t.clock = s.clock
  subscriptions : t.subscriptions = s.subscriptions
  grants : t.grants.rows = s.grants.rows ++ new
  completed : ∀ g ∈ new, g.status = .completed
  ofSlot : ∀ g ∈ new, OfSlot g
  cycle : ∀ g ∈ new, ∀ b ∈ s.benefits.get g.subscriptionBenefitId, g.cycle = b.cycle
  served : ∀ id b', t.benefits.get id = some b' →
    ∃ b, s.benefits.get id = some b ∧ Served s new b b'
  kept : ∀ id, (s.benefits.get id).isSome = true → (t.benefits.get id).isSome = true

theorem Progress.start (s : Store) : Progress s [] s where
  clock := rfl
  subscriptions := rfl
  grants := (List.append_nil _).symm
  completed := by simp
  ofSlot := by simp
  cycle := by simp
  served := by
    intro id b hb
    refine ⟨b, hb, rfl, fun _ => ⟨rfl, rfl⟩, fun h => ⟨?_, [], rfl, rfl⟩⟩
    simp only [due, Bool.and_eq_true] at h
    obtain ⟨next, hnext, -⟩ := (Option.any_eq_true _ _).mp h.1.1.2
    rw [hnext]
    rfl
  kept := fun _ h => h

/-- After some passes those benefits are due that were due and are still behind. -/
theorem Progress.due_iff (h : Progress s new t) {b b' : SubscriptionBenefit}
    (hserved : Served s new b b') : due s.clock t b' = true ↔
      due s.clock s b = true ∧ b'.nextGrantAt.any (· ≤ s.clock) = true := by
  have hnew : new.any (fun g => g.subscriptionBenefitId == b'.id &&
      (g.status == .failed || g.status == .processing)) = false := by
    refine List.any_eq_false.mpr fun g hg => ?_
    simp [h.completed g hg]
  have hdue : due s.clock t b' = due s.clock s b' := by
    simp only [due, h.subscriptions, h.grants, List.any_append, hnew, Bool.or_false]
  rw [hdue]
  cases hb : due s.clock s b with
  | false => simp [(hserved.still hb).1, hb]
  | true =>
    rw [hserved.same]
    simp only [due, Bool.and_eq_true] at hb ⊢
    exact ⟨fun h => ⟨trivial, h.1.1.2⟩, fun h => ⟨⟨⟨hb.1.1.1, h.2⟩, hb.1.2⟩, hb.2⟩⟩

/-- A grant with the name of a slot that a due benefit still owes was there, and closes it. -/
theorem Progress.named (h : Progress s new t) (hclear : Clear s) {b b' : SubscriptionBenefit}
    (hget : s.benefits.get id = some b) (hserved : Served s new b b')
    (hdue : due s.clock s b = true) {slot : ℕ} (hslot : slot ∈ owed s.clock b') {g : BenefitGrant}
    (hg : g ∈ t.grants) (hkey : g.grantKey = (id, cycleKey slot)) :
    g ∈ s.grants ∧ Closes b slot g := by
  obtain ⟨-, past, howed, hpast⟩ := hserved.owed hdue
  have hid : b.id = id := Table.id_of_get hget
  rw [← Table.mem_rows, h.grants, List.mem_append] at hg
  rcases hg with hg | hg
  · refine ⟨hg, hclear b (Table.mem_of_get hget) hdue slot ?_ g hg (hid ▸ hkey)⟩
    rw [howed]
    exact List.mem_append_right _ hslot
  · -- the slots paid so far have names of their own
    have hof := h.ofSlot g hg
    rw [OfSlot, hkey] at hof
    obtain ⟨howner, hname⟩ := Prod.mk.inj hof
    have hpaid : g.scheduledAt ∈ slotsOf b.id new :=
      List.mem_map_of_mem (List.mem_filter.mpr ⟨hg, by simp [hid, ← howner]⟩)
    rw [hpast] at hpaid
    have hnamed := owed_named s.clock b
    rw [howed] at hnamed
    exact absurd hname.symm
      ((List.pairwise_append.mp hnamed).2.2 _ (List.mem_of_mem_filter hpaid) _ hslot)

/-- A benefit whose schedule moves past some of what it owes, and that is paid what was unpaid. -/
theorem Served.onward {b b' : SubscriptionBenefit} (h : Served s new b b')
    (hdue : due s.clock s b = true) {slots : List ℕ} {added : List BenefitGrant} {last : Option ℕ}
    {next : ℕ} (howed : FastKit.owed s.clock b' =
      slots ++ FastKit.owed s.clock { b' with lastGrantAt := last, nextGrantAt := some next })
    (hadded : slotsOf b.id added = slots.filter (Unpaid s b ·)) :
    Served s (new ++ added) b { b' with lastGrantAt := last, nextGrantAt := some next } := by
  obtain ⟨-, past, hpast, hpaid⟩ := h.owed hdue
  refine ⟨?_, fun hno => absurd hdue (by simp [hno]), fun _ => ⟨rfl, past ++ slots, ?_, ?_⟩⟩
  · exact congrArg (fun x => { x with lastGrantAt := last, nextGrantAt := some next }) h.same
  · rw [hpast, howed, List.append_assoc]
  · rw [slotsOf_append, hpaid, hadded, List.filter_append]

/-- What the schedules are behind by, all together. -/
def backlog (moment : ℕ) (s : Store) : ℕ := (s.benefits.rows.map (behind moment)).sum

/-- A write that moves one schedule on leaves less behind. -/
theorem backlog_lt {p : SubscriptionBenefit → Bool} {f : SubscriptionBenefit → SubscriptionBenefit}
    {still : Still f} {b : SubscriptionBenefit} (hb : b ∈ s.benefits) (hp : p b = true)
    (honly : ∀ r ∈ s.benefits, p r = true → r = b) (hlt : behind moment (f b) < behind moment b)
    (ht : t.benefits = s.benefits.modify p f still) : backlog moment t < backlog moment s := by
  have hrows : t.benefits.rows = s.benefits.rows.map (fun r => if p r then f r else r) := by
    rw [ht]
    rfl
  rw [backlog, backlog, hrows, List.map_map]
  refine List.sum_lt_sum _ _ (fun r hr => ?_) ⟨b, hb, ?_⟩
  · by_cases hr' : p r = true
    · obtain rfl := honly r hr hr'
      simp only [Function.comp_apply, if_pos hr']
      exact Nat.le_of_lt hlt
    · simp [hr']
  · simpa [hp] using hlt

/-- The passes came on from `t` to `u`, by a turn of one benefit. -/
def CameOn (s t u : Store) (id : ℕ) : Prop :=
  (∃ new, Progress s new u) ∧ (∀ j, j ≠ id → u.benefits.get j = t.benefits.get j) ∧
    backlog s.clock u < backlog s.clock t

section Turn
variable {b b' : SubscriptionBenefit} {every : Interval} {next later slot : ℕ} {last : Option ℕ}
  {added : List BenefitGrant} (h : Progress s new t) (hget : s.benefits.get id = some b)
  (hget' : t.benefits.get id = some b') (hserved : Served s new b b')
  (hdue : due s.clock s b = true) (hnext : b'.nextGrantAt = some next) (hle : next ≤ s.clock)
include h hget hget' hserved hdue hnext hle

/-- Where one turn moved one schedule, and added what it paid. -/
theorem Progress.turn {p : SubscriptionBenefit → Bool}
    {f : SubscriptionBenefit → SubscriptionBenefit} (still : Still f)
    (hp : ∀ r ∈ t.benefits, p r = true ↔ r = b')
    (hf : f b' = { b' with lastGrantAt := last, nextGrantAt := some later }) (hlater : next < later)
    (hclock : u.clock = t.clock) (hsubscriptions : u.subscriptions = t.subscriptions)
    (hbenefits : u.benefits = t.benefits.modify p f still)
    (hgrants : u.grants.rows = t.grants.rows ++ added)
    (hadded : ∀ g ∈ added, g.status = .completed ∧ OfSlot g ∧ g.subscriptionBenefitId = id ∧
      g.cycle = b'.cycle) {slots : List ℕ} (howed : owed s.clock b' =
      slots ++ owed s.clock { b' with lastGrantAt := last, nextGrantAt := some later })
    (hslots : slotsOf b.id added = slots.filter (Unpaid s b ·)) : CameOn s t u id := by
  have hid : b'.id = id := Table.id_of_get hget'
  have hmem : b' ∈ t.benefits := Table.mem_of_get hget'
  have hthis : u.benefits.get id = some (f b') := by
    rw [hbenefits, Table.get_modify, hget', Option.map_some, if_pos ((hp b' hmem).mpr rfl)]
  have hother : ∀ j, j ≠ id → u.benefits.get j = t.benefits.get j := by
    intro j hj
    rw [hbenefits, Table.get_modify]
    cases hr : t.benefits.get j with
    | none => rfl
    | some r =>
      rw [Option.map_some, if_neg]
      intro hpr
      obtain rfl := (hp r (Table.mem_of_get hr)).mp hpr
      exact hj ((Table.id_of_get hr).symm.trans hid)
  have hbehind : behind s.clock (f b') < behind s.clock b' :=
    behind_lt hnext hle (congrArg (·.nextGrantAt) hf) hlater
  refine ⟨⟨new ++ added, ?_⟩, hother, backlog_lt hmem ((hp b' hmem).mpr rfl)
    (fun r hr hpr => (hp r hr).mp hpr) hbehind hbenefits⟩
  refine ⟨hclock.trans h.clock, hsubscriptions.trans h.subscriptions, ?_, ?_, ?_, ?_, ?_, ?_⟩
  · rw [hgrants, h.grants, List.append_assoc]
  · exact fun g hg => (List.mem_append.mp hg).elim (h.completed g) fun hg => (hadded g hg).1
  · exact fun g hg => (List.mem_append.mp hg).elim (h.ofSlot g) fun hg => (hadded g hg).2.1
  · intro g hg r hr
    rcases List.mem_append.mp hg with hg | hg
    · exact h.cycle g hg r hr
    · obtain ⟨-, -, howner, hcycle⟩ := hadded g hg
      rw [howner, Option.mem_def, hget] at hr
      obtain rfl := Option.some.inj hr
      rw [hcycle, hserved.same]
  · intro j c' hc'
    by_cases hj : j = id
    · subst hj
      obtain rfl := Option.some.inj (hthis.symm.trans hc')
      exact ⟨b, hget, hf ▸ hserved.onward hdue howed hslots⟩
    · obtain ⟨c, hc, hs⟩ := h.served j c' (hother j hj ▸ hc')
      have hcj : c.id = j := Table.id_of_get hc
      have hnone : slotsOf c.id added = [] :=
        slotsOf_others fun g hg heq => hj (hcj.symm.trans (heq.symm.trans (hadded g hg).2.2.1))
      refine ⟨c, hc, hs.same, fun hd => ?_, fun hd => ?_⟩
      · rw [slotsOf_append, hnone, List.append_nil]
        exact hs.still hd
      · rw [slotsOf_append, hnone, List.append_nil]
        exact hs.owed hd
  · intro j hj
    by_cases hji : j = id
    · rw [hji, hthis]
      rfl
    · rw [hother j hji]
      exact h.kept j hj

/-- Where the schedule moved past all it missed. -/
theorem Progress.passed (hevery : b'.cadence.interval = some every)
    (hnil : owes b'.missedCyclePolicy every next s.clock = []) (hlater : s.clock < later) :
    CameOn s t { t with
      benefits := t.benefits.modify (·.id == id) (fun b => { b with nextGrantAt := some later })
        (still_dated _) } id := by
  have hp : ∀ r ∈ t.benefits, (r.id == id) = true ↔ r = b' := by
    intro r hr
    have hid : b'.id = id := Table.id_of_get hget'
    refine beq_iff_eq.trans ⟨fun h => ?_, fun h => h ▸ hid⟩
    exact Table.eq_of_id hr (Table.mem_of_get hget') (h.trans hid.symm)
  have howed : owed s.clock b' = [] ++ owed s.clock { b' with nextGrantAt := some later } := by
    rw [owed_eq hevery hnext, hnil, owed_later (by simp [hlater])]
    rfl
  exact h.turn hget hget' hserved hdue hnext hle (still_dated _) hp rfl
    (Nat.lt_of_le_of_lt hle hlater) rfl rfl rfl (List.append_nil _).symm (by simp) howed rfl

/-- Where a grant closed the first slot owed, one that was there or one the turn opened. -/
theorem Progress.closed {grant : BenefitGrant} (hevery : b'.cadence.interval = some every)
    (hactive : b'.status = .active) (hfrom : next ≤ slot)
    (hcons : owes b'.missedCyclePolicy every next s.clock =
      slot :: owes b'.missedCyclePolicy every (addInterval slot every) s.clock)
    (hadvances : grant.status.advances = true) (hcycle : grant.cycle = b'.cycle)
    (hscheduled : grant.scheduledAt = slot) (hclock : u.clock = t.clock)
    (hsubscriptions : u.subscriptions = t.subscriptions)
    (hbenefits : u.benefits = (closedBy b' grant t).benefits)
    (hgrants : u.grants.rows = t.grants.rows ++ added)
    (hadded : ∀ g ∈ added, g.status = .completed ∧ OfSlot g ∧ g.subscriptionBenefitId = id ∧
      g.cycle = b'.cycle) (hslots : slotsOf b.id added = [slot].filter (Unpaid s b ·)) :
    CameOn s t u id := by
  rw [closedBy, if_pos hadvances] at hbenefits
  have hp : ∀ r ∈ t.benefits, advances b' grant r = true ↔ r = b' := by
    intro r hr
    simp only [advances, hcycle, Bool.and_eq_true, beq_iff_eq]
    constructor
    · exact fun h => Table.eq_of_id hr (Table.mem_of_get hget') h.1.1
    · rintro rfl
      exact ⟨⟨rfl, rfl⟩, hactive⟩
  have hdates : b'.cadence.interval.map (addInterval grant.scheduledAt) =
      some (addInterval slot every) := by
    rw [hevery, hscheduled]
    rfl
  let moved : SubscriptionBenefit := { b' with
    lastGrantAt := some t.clock
    nextGrantAt := some (addInterval slot every) }
  have howed : owed s.clock b' = [slot] ++ owed s.clock moved := by
    rw [owed_eq hevery hnext, hcons, owed_eq (b := moved) hevery rfl]
    rfl
  have still : Still fun r : SubscriptionBenefit => { r with
      lastGrantAt := some t.clock
      nextGrantAt := b'.cadence.interval.map (addInterval grant.scheduledAt) } := fun _ => ⟨rfl, rfl⟩
  exact h.turn hget hget' hserved hdue hnext hle still hp (by rw [hdates])
    (Nat.lt_of_le_of_lt hfrom (lt_addInterval slot every)) hclock hsubscriptions hbenefits hgrants
    hadded howed hslots

end Turn

/-- A turn of a due benefit closes the first slot it owes or moves past them all. -/
theorem Turned.progress (h : Progress s new t) (hclear : Clear s) (hturn : Turned s.clock id t u)
    {b' : SubscriptionBenefit} (hget' : t.benefits.get id = some b') (hdue : due s.clock t b' = true)
    (hall : ∀ g ∈ u.grants, s.grants.Lacks g → g.status = .completed) : CameOn s t u id := by
  obtain ⟨b, hget, hserved⟩ := h.served id b' hget'
  obtain ⟨hdueb, hbehind⟩ := (h.due_iff hserved).mp hdue
  obtain ⟨next, hnext, hle⟩ := (Option.any_eq_true _ _).mp hbehind
  have hle : next ≤ s.clock := by simpa using hle
  have hid : b'.id = id := Table.id_of_get hget'
  have hb : b.id = id := Table.id_of_get hget
  simp only [due, Bool.and_eq_true, beq_iff_eq] at hdue
  obtain ⟨every, hevery⟩ := Option.isSome_iff_exists.mp hdue.1.1.1.2
  have hactive : b'.status = .active := hdue.1.1.1.1
  have hsame : b'.cycle = b.cycle := by rw [hserved.same]
  have howed : owed s.clock b' = owes b'.missedCyclePolicy every next s.clock := owed_eq hevery hnext
  cases hturn with
  | passed get resolved =>
    obtain rfl := Option.some.inj (hget'.symm.trans get)
    obtain ⟨slot, hnone, -⟩ | ⟨-, hnil, later, hlater, rfl⟩ := owes_step hevery hnext hle resolved
    · cases hnone
    · exact h.passed hget hget' hserved hdueb hnext hle hevery hnil hlater
  | @met _ _ slot grant get resolved found key =>
    obtain rfl := Option.some.inj (hget'.symm.trans get)
    obtain ⟨_, hslot, hfrom, hcons⟩ | ⟨hnone, -⟩ := owes_step hevery hnext hle resolved
    · obtain rfl := Option.some.inj hslot
      have hmem : slot ∈ owed s.clock b' := by
        rw [howed, hcons]
        exact List.mem_cons_self
      obtain ⟨hold, hcloses⟩ := h.named hclear hget hserved hdueb hmem found (hid ▸ key)
      have hpaid : ¬Unpaid s b slot := fun hunpaid => hunpaid grant hold hcloses
      obtain ⟨-, hcycle, hscheduled, hadvances⟩ := hcloses
      exact h.closed hget hget' hserved hdueb hnext hle hevery hactive hfrom hcons hadvances
        (hcycle.trans hsame.symm) hscheduled closedBy_clock closedBy_subscriptions rfl
        (by rw [closedBy_grants, List.append_nil]) (by simp) (by simp [slotsOf, hpaid])
    · cases hnone
  | @paid _ _ slot grant _ get resolved free cycled =>
    obtain rfl := Option.some.inj (hget'.symm.trans get)
    obtain ⟨_, hslot, hfrom, hcons⟩ | ⟨hnone, -⟩ := owes_step hevery hnext hle resolved
    · obtain rfl := Option.some.inj hslot
      obtain ⟨hof, howner, hscheduled, hcycle⟩ := cycled.ofSlot
      have hrows : u.grants.rows = s.grants.rows ++ (new ++ [grant]) := by
        rw [cycled.grants, h.grants, List.append_assoc]
      have hdone : grant.status = .completed := by
        refine hall grant ?_ (lacks_of_added hrows (by simp))
        rw [← Table.mem_rows, hrows]
        simp
      have hunpaid : Unpaid s b slot := by
        rintro g hg ⟨hkey, -⟩
        refine free g ?_ (by rw [hkey, hb, hid])
        rw [← Table.mem_rows, h.grants]
        exact List.mem_append_left _ hg
      have hadded : ∀ g ∈ [grant], g.status = .completed ∧ OfSlot g ∧
          g.subscriptionBenefitId = id ∧ g.cycle = b'.cycle := by
        intro g hg
        rw [List.mem_singleton.mp hg]
        exact ⟨hdone, hof, howner.trans hid, hcycle⟩
      exact h.closed hget hget' hserved hdueb hnext hle hevery hactive hfrom hcons
        (by rw [hdone]; rfl) hcycle hscheduled cycled.clock cycled.subscriptions cycled.benefits
        cycled.grants hadded (by simp [slotsOf, howner, hid, hb, hscheduled, hunpaid])
    · cases hnone

/-- The turns of a pass whose benefits are all due. -/
theorem Turns.progress (hclear : Clear s) (hturns : Turns s.clock ids t u) (h : Progress s new t)
    (hnodup : ids.Nodup)
    (hdue : ∀ id ∈ ids, ∃ b', t.benefits.get id = some b' ∧ due s.clock t b' = true)
    (hall : ∀ g ∈ u.grants, s.grants.Lacks g → g.status = .completed) :
    (∃ new, Progress s new u) ∧ (ids = [] ∨ backlog s.clock u < backlog s.clock t) := by
  induction hturns generalizing new with
  | nil => exact ⟨⟨new, h⟩, .inl rfl⟩
  | @cons id rest t w u turn turns ih =>
    obtain ⟨hnot, hnodup⟩ := List.nodup_cons.mp hnodup
    obtain ⟨b', hget', hd⟩ := hdue id List.mem_cons_self
    obtain ⟨later, hlater, -⟩ := turns.grown
    have hw : ∀ g ∈ w.grants, s.grants.Lacks g → g.status = .completed := by
      intro g hg
      refine hall g ?_
      rw [← Table.mem_rows, hlater]
      exact List.mem_append_left _ hg
    obtain ⟨⟨new', hprogress⟩, hother, hlt⟩ := turn.progress h hclear hget' hd hw
    -- the benefits of the rest of the list are as they were
    have hrest : ∀ j ∈ rest, ∃ b', w.benefits.get j = some b' ∧ due s.clock w b' = true := by
      intro j hj
      obtain ⟨c', hc', hcdue⟩ := hdue j (List.mem_cons_of_mem _ hj)
      have hsame : w.benefits.get j = some c' := by
        rw [hother j (fun heq => hnot (heq ▸ hj)), hc']
      obtain ⟨c, hc, hserved⟩ := h.served j c' hc'
      obtain ⟨c₁, hc₁, hserved'⟩ := hprogress.served j c' hsame
      obtain rfl := Option.some.inj (hc.symm.trans hc₁)
      exact ⟨c', hsame, (hprogress.due_iff hserved').mpr ((h.due_iff hserved).mp hcdue)⟩
    obtain ⟨hend, hle⟩ := ih hprogress hnodup hrest hall
    refine ⟨hend, .inr ?_⟩
    rcases hle with rfl | hle
    · cases turns
      exact hlt
    · exact hle.trans hlt

theorem passes_succ (n : ℕ) (s : Store) : pass^[n + 1] s = pass (pass^[n] s) :=
  Function.iterate_succ_apply' pass n s

/-- What a pass lists is due. -/
theorem due_of_mem_dueIds (h : id ∈ dueIds moment s) :
    ∃ b, s.benefits.get id = some b ∧ due moment s b = true := by
  obtain ⟨b, hb, rfl⟩ := List.mem_map.mp h
  have hsel := (List.mem_insertionSort _).mp (List.mem_of_mem_take hb)
  obtain ⟨hmem, hdue⟩ := Table.mem_select.mp hsel
  exact ⟨b, Table.get_of_mem hmem, hdue⟩

theorem dueIds_eq_nil : dueIds moment s = [] ↔ ∀ b ∈ s.benefits, due moment s b = false := by
  have hbatch : dueBatch ≠ 0 := by decide
  rw [dueIds, List.map_eq_nil_iff, List.take_eq_nil_iff, or_iff_right hbatch]
  constructor
  · intro h b hb
    by_contra hdue
    have hmem : b ∈ s.benefits.select (due moment s) :=
      Table.mem_select.mpr ⟨hb, by simpa using hdue⟩
    rw [← List.mem_insertionSort (fun a b => a.nextGrantAt.getD 0 ≤ b.nextGrantAt.getD 0), h] at hmem
    exact absurd hmem List.not_mem_nil
  · intro h
    have hnil : s.benefits.select (due moment s) = [] := List.filter_eq_nil_iff.mpr fun b hb => by
      simp [h b hb]
    rw [hnil]
    rfl

/-- A pass that succeeds follows the slots owed, and leaves less behind where it lists a
benefit. -/
theorem Progress.pass (h : Progress s new t) (hclear : Clear s) (hs : Succeeds t) :
    (∃ new, Progress s new (pass t)) ∧
      (dueIds s.clock t = [] ∨ backlog s.clock (FastKit.pass t) < backlog s.clock t) := by
  have hturns := hs.1.turns
  rw [h.clock] at hturns
  obtain ⟨later, hlater, -⟩ := hturns.grown
  refine hturns.progress hclear h (nodup_dueIds _ _) (fun id hid => due_of_mem_dueIds hid) ?_
  intro g hg hlacks
  have hrows := hg
  rw [← Table.mem_rows, hlater, h.grants, List.append_assoc] at hrows
  rcases List.mem_append.mp hrows with hold | hnew
  · exact absurd rfl (hlacks g hold)
  · rcases List.mem_append.mp hnew with hnew | hnew
    · exact h.completed g hnew
    · exact hs.2 g hg (lacks_of_added hlater hnew)

section Passes
variable (hall : ∀ n, Succeeds (pass^[n] s)) (hclear : Clear s)
include hall hclear

theorem progress_passes (n : ℕ) : ∃ new, Progress s new (pass^[n] s) := by
  induction n with
  | zero => exact ⟨[], Progress.start s⟩
  | succ n ih =>
    obtain ⟨new, h⟩ := ih
    rw [passes_succ]
    exact (h.pass hclear (hall n)).1

/-- The passes come to one that lists nothing. -/
theorem exists_idle : ∃ n, dueIds s.clock (pass^[n] s) = [] := by
  by_contra hnone
  push Not at hnone
  have hless : ∀ n, backlog s.clock (pass^[n] s) + n ≤ backlog s.clock s := by
    intro n
    induction n with
    | zero => exact le_rfl
    | succ n ih =>
      obtain ⟨new, h⟩ := progress_passes hall hclear n
      have hlt := ((h.pass hclear (hall n)).2).resolve_left (hnone n)
      rw [passes_succ]
      omega
  have := hless (backlog s.clock s + 1)
  omega

end Passes

/-- Whatever the store, what the passes open are grants of slots. -/
theorem grown_passes (hall : ∀ n, Completes (pass^[n] s)) (n : ℕ) :
    ∃ new, (pass^[n] s).grants.rows = s.grants.rows ++ new ∧ ∀ g ∈ new, OfSlot g := by
  induction n with
  | zero => exact ⟨[], (List.append_nil _).symm, by simp⟩
  | succ n ih =>
    obtain ⟨new, hrows, hnew⟩ := ih
    obtain ⟨later, hrows', hlater⟩ := (hall n).turns.grown
    refine ⟨new ++ later, by rw [passes_succ, hrows', hrows, List.append_assoc], fun g hg => ?_⟩
    exact (List.mem_append.mp hg).elim (hnew g) fun hg => (hlater g hg).1

/-- A pass that lists nothing leaves the store as it is. -/
theorem pass_idle (h : dueIds s.clock s = []) : pass s = s := by
  have hrun : processDue.run Memory.empty s s = (.ok ([], Memory.empty), s, s) := by
    simp only [processDue, now, run_bind, run_query, onward_ok, h]
    rfl
  rw [pass, hrun]

/-- The slots the grants opened since are of, in their order. -/
def paidSince (s : Store) (id : ℕ) (t : Store) : List ℕ :=
  (t.grants.select (fun g => decide (s.grants.Lacks g) && g.subscriptionBenefitId == id)).map
    (·.scheduledAt)

theorem paidSince_added (h : t.grants.rows = s.grants.rows ++ new) :
    paidSince s id t = slotsOf id new := by
  rw [paidSince, filter_added h, slotsOf]

/-- No grant there was has the name of a slot that was paid since. -/
theorem unnamed_of_paid {slot : ℕ} (h : t.grants.rows = s.grants.rows ++ new)
    (hof : ∀ g ∈ new, OfSlot g) (hslot : slot ∈ paidSince s id t) :
    ∀ g ∈ s.grants, g.grantKey ≠ (id, cycleKey slot) := by
  intro g hg hkey
  rw [paidSince_added h] at hslot
  obtain ⟨g', hg', rfl⟩ := List.mem_map.mp hslot
  obtain ⟨hmem, howner⟩ := List.mem_filter.mp hg'
  have hkey' : g'.grantKey = (id, cycleKey g'.scheduledAt) := by
    rw [hof g' hmem, beq_iff_eq.mp howner]
  have hsame : g = g' := by
    refine Table.eq_of_key (t := t.grants) (k := .grant g.grantKey) ?_ ?_ List.mem_cons_self ?_
    · rw [← Table.mem_rows, h]
      exact List.mem_append_left _ hg
    · rw [← Table.mem_rows, h]
      exact List.mem_append_right _ hmem
    · rw [hkey, ← hkey']
      exact List.mem_cons_self
  exact lacks_of_added h hmem g hg (congrArg (·.id) hsame)

/-- What catching up owes, whatever the policy: the walk lands on the one slot the moment is in,
a due benefit resolves to the slot its policy says, and the passes that follow one another pay what is owed and
unpaid, in its order, so that each slot owed is closed by one grant, and then find nothing due. -/
structure CatchesUp (s : Store) : Prop where
  landing : ∀ (every : Interval) (since moment : ℕ), since ≤ moment → ∃ k,
    landing every since moment = nthSlot every since k ∧
      ∀ j, (nthSlot every since j ≤ moment ∧ moment < nthSlot every since (j + 1)) ↔ j = k
  resolves : ∀ (b : SubscriptionBenefit) (every : Interval) (due moment : ℕ),
    b.cadence.interval = some every → b.nextGrantAt = some due → due ≤ moment →
    resolveDueSlot b moment = .ok (match b.missedCyclePolicy with
      | .catchUp => (some due, b)
      | .latestOnly => (some (FastKit.landing every due moment), b)
      | .skip => if moment < addInterval due every then (some due, b) else
        (none, { b with nextGrantAt := some (addInterval (FastKit.landing every due moment) every) }))
  pays : ∃ n, ∀ k, n ≤ k → dueIds s.clock (pass^[k] s) = [] ∧ ∀ b ∈ s.benefits,
    (due s.clock s b = false → paidSince s b.id (pass^[k] s) = []) ∧
    (due s.clock s b = true →
      paidSince s b.id (pass^[k] s) = (owed s.clock b).filter (Unpaid s b ·) ∧
      ∀ slot ∈ owed s.clock b, ∃! g, g ∈ (pass^[k] s).grants ∧ Closes b slot g)

theorem resolveDueSlot_eq {b : SubscriptionBenefit} {every : Interval} {due : ℕ}
    (hevery : b.cadence.interval = some every) (hdue : b.nextGrantAt = some due) (h : due ≤ moment) :
    resolveDueSlot b moment = .ok (match b.missedCyclePolicy with
      | .catchUp => (some due, b)
      | .latestOnly => (some (landing every due moment), b)
      | .skip => if moment < addInterval due every then (some due, b) else
        (none, { b with nextGrantAt := some (addInterval (landing every due moment) every) })) := by
  unfold resolveDueSlot
  rw [hdue, hevery]
  dsimp only
  split_ifs with hnext
  · cases b.missedCyclePolicy with
    | catchUp => rfl
    | latestOnly => rw [landing_self h hnext]
    | skip => rfl
  · cases b.missedCyclePolicy <;> rfl

theorem landing_iff {every : Interval} {since : ℕ} (h : since ≤ moment) : ∃ k,
    landing every since moment = nthSlot every since k ∧
      ∀ j, (nthSlot every since j ≤ moment ∧ moment < nthSlot every since (j + 1)) ↔ j = k := by
  obtain ⟨k, hk, hle, hlt⟩ : ∃ k, landing every since moment = nthSlot every since k ∧
      nthSlot every since k ≤ moment ∧ moment < nthSlot every since (k + 1) :=
    existsUnique_landing h
  refine ⟨k, hk, fun j => ⟨fun hj => slot_unique hj.1 hj.2 hle hlt, ?_⟩⟩
  rintro rfl
  exact ⟨hle, hlt⟩

/-- Once nothing is due, further passes leave the store as it is. -/
theorem iterate_idle (hclock : (pass^[id] s).clock = s.clock)
    (hidle : dueIds s.clock (pass^[id] s) = []) {k : ℕ} (hk : id ≤ k) : pass^[k] s = pass^[id] s := by
  induction k, hk using Nat.le_induction with
  | base => rfl
  | succ k _ ih => rw [passes_succ, ih, pass_idle (hclock ▸ hidle)]

/-- Two grants that close one slot are one. -/
theorem Closes.unique {b : SubscriptionBenefit} {slot : ℕ} {g g' : BenefitGrant} (hg : g ∈ s.grants)
    (hg' : g' ∈ s.grants) (h : g.grantKey = (b.id, cycleKey slot)) (h' : Closes b slot g') : g = g' := by
  refine Table.eq_of_key hg hg' (k := .grant g.grantKey) List.mem_cons_self ?_
  rw [h, ← h'.1]
  exact List.mem_cons_self

/-- What passes that came to an end leave of a benefit. -/
theorem Progress.settled (h : Progress s new t) (hidle : dueIds s.clock t = [])
    {b : SubscriptionBenefit} (hb : b ∈ s.benefits) :
    (due s.clock s b = false → slotsOf b.id new = []) ∧
      (due s.clock s b = true → slotsOf b.id new = (owed s.clock b).filter (Unpaid s b ·) ∧
        ∀ slot ∈ owed s.clock b, ∃ g ∈ t.grants, Closes b slot g) := by
  have hget : s.benefits.get b.id = some b := Table.get_of_mem hb
  obtain ⟨b', hget'⟩ := Option.isSome_iff_exists.mp (h.kept b.id (by rw [hget]; rfl))
  obtain ⟨c, hc, hserved⟩ := h.served b.id b' hget'
  obtain rfl := Option.some.inj (hget.symm.trans hc)
  refine ⟨fun hdue => (hserved.still hdue).2, fun hdue => ?_⟩
  have hlater : b'.nextGrantAt.any (· ≤ s.clock) = false := by
    by_contra hbehind
    have hdue' := (h.due_iff hserved).mpr ⟨hdue, by simpa using hbehind⟩
    rw [dueIds_eq_nil.mp hidle b' (Table.mem_of_get hget')] at hdue'
    cases hdue'
  obtain ⟨-, past, howed, hpaid⟩ := hserved.owed hdue
  rw [owed_later hlater, List.append_nil] at howed
  rw [howed]
  refine ⟨hpaid, fun slot hslot => ?_⟩
  by_cases hunpaid : Unpaid s b slot
  · -- one of the grants the passes opened
    have hmem : slot ∈ slotsOf b.id new := by
      rw [hpaid]
      exact List.mem_filter.mpr ⟨hslot, decide_eq_true hunpaid⟩
    obtain ⟨g, hg, rfl⟩ := List.mem_map.mp hmem
    obtain ⟨hnew, howner⟩ := List.mem_filter.mp hg
    have howner : g.subscriptionBenefitId = b.id := by simpa using howner
    refine ⟨g, ?_, ?_, h.cycle g hnew b (by rw [howner]; exact hget), rfl, ?_⟩
    · rw [← Table.mem_rows, h.grants]
      exact List.mem_append_right _ hnew
    · rw [h.ofSlot g hnew, howner]
    · rw [h.completed g hnew]
      rfl
  · simp only [Unpaid, not_forall, not_not] at hunpaid
    obtain ⟨g, hg, hcloses⟩ := hunpaid
    refine ⟨g, ?_, hcloses⟩
    rw [← Table.mem_rows, h.grants]
    exact List.mem_append_left _ hg

/-- A node alone, all of whose deliveries succeed, catches up as the policies say if and only if
each grant with the name of a slot that is still owed closes that slot. -/
theorem catches_up_iff (hall : ∀ n, Succeeds (pass^[n] s)) : CatchesUp s ↔ Clear s := by
  constructor
  · intro h b hb hdue slot hslot g hg hkey
    obtain ⟨n, hn⟩ := h.pays
    obtain ⟨new, hrows, -⟩ := grown_passes (fun k => (hall k).1) n
    obtain ⟨g', ⟨hg', hcloses⟩, -⟩ := (((hn n le_rfl).2 b hb).2 hdue).2 slot hslot
    have hkept : g ∈ (pass^[n] s).grants := by
      rw [← Table.mem_rows, hrows]
      exact List.mem_append_left _ hg
    rwa [Closes.unique hkept hg' hkey hcloses]
  · intro hclear
    refine ⟨fun _ _ _ h => landing_iff h, fun _ _ _ _ he hd h => resolveDueSlot_eq he hd h, ?_⟩
    obtain ⟨n, hidle⟩ := exists_idle hall hclear
    obtain ⟨new, h⟩ := progress_passes hall hclear n
    refine ⟨n, fun k hk => ?_⟩
    rw [iterate_idle h.clock hidle hk]
    refine ⟨hidle, fun b hb => ?_⟩
    obtain ⟨hnone, hpaid⟩ := h.settled hidle hb
    rw [paidSince_added h.grants]
    refine ⟨hnone, fun hdue => ⟨(hpaid hdue).1, fun slot hslot => ?_⟩⟩
    obtain ⟨g, hg, hcloses⟩ := (hpaid hdue).2 slot hslot
    refine ⟨g, ⟨hg, hcloses⟩, fun g' hg' => ?_⟩
    exact Closes.unique hg'.1 hg hg'.2.1 hcloses

/-- A grant of another cycle moves no schedule. -/
theorem closedBy_other {benefit : SubscriptionBenefit} {grant : BenefitGrant}
    (hb : benefit ∈ s.benefits) (hc : grant.cycle ≠ benefit.cycle) : closedBy benefit grant s = s := by
  unfold closedBy
  split_ifs
  · have hnone : ∀ r ∈ s.benefits, advances benefit grant r = false := by
      intro r hr
      by_contra hadvances
      simp only [advances, Bool.not_eq_false, Bool.and_eq_true, beq_iff_eq] at hadvances
      obtain rfl : r = benefit := Table.eq_of_id hr hb hadvances.1.1
      exact hc hadvances.1.2.symm
    have hsame : (advanced benefit grant s).benefits = s.benefits := by
      refine Table.modify_none ?_ hnone
      exact fun _ => ⟨rfl, rfl⟩
    change { s with benefits := (advanced benefit grant s).benefits } = s
    rw [hsame]
  · rfl

/-- A pass that meets a grant of a former cycle under the name of the one slot it lists leaves
the store as it is, and lists the slot again. -/
theorem pass_stuck {benefit : SubscriptionBenefit} {slot : ℕ} {grant : BenefitGrant}
    (hs : Succeeds s) (hlist : dueIds s.clock s = [benefit.id]) (hb : benefit ∈ s.benefits)
    (hslot : dueSlot benefit s.clock = some slot) (hg : grant ∈ s.grants)
    (hkey : grant.grantKey = (benefit.id, cycleKey slot)) (hc : grant.cycle ≠ benefit.cycle) :
    pass s = s := by
  have hget : s.benefits.get benefit.id = some benefit := Table.get_of_mem hb
  have hturns := hs.1.turns
  rw [hlist] at hturns
  generalize pass s = t at hturns ⊢
  cases hturns with
  | cons turn turns =>
    cases turns
    cases turn with
    | passed get resolved =>
      obtain rfl := Option.some.inj (hget.symm.trans get)
      rw [dueSlot, resolved] at hslot
      cases hslot
    | met get resolved found key =>
      obtain rfl := Option.some.inj (hget.symm.trans get)
      rw [dueSlot, resolved] at hslot
      obtain rfl := Option.some.inj hslot
      rw [Table.eq_of_key found hg List.mem_cons_self (by rw [key, ← hkey]; exact List.mem_cons_self)]
      exact closedBy_other hb hc
    | paid get resolved free cycled =>
      obtain rfl := Option.some.inj (hget.symm.trans get)
      rw [dueSlot, resolved] at hslot
      obtain rfl := Option.some.inj hslot
      exact absurd hkey (free _ hg)

theorem Succeeds.idle (h : dueIds s.clock s = []) : Succeeds s := by
  have hrun : processDue.run Memory.empty s s = (.ok ([], Memory.empty), s, s) := by
    simp only [processDue, now, run_bind, run_query, onward_ok, h]
    rfl
  refine ⟨by rw [Completes, hrun]; rfl, fun g hg hlacks => ?_⟩
  rw [pass_idle h] at hg
  exact absurd rfl (hlacks g hg)

/-- The passes succeed until one of them lists nothing. -/
def Settles (n : ℕ) (s : Store) : Prop :=
  (∀ k < n, Succeeds (pass^[k] s)) ∧ (pass^[n] s).clock = s.clock ∧
    dueIds s.clock (pass^[n] s) = []

instance (n : ℕ) (s : Store) : Decidable (Settles n s) := by
  unfold Settles
  infer_instance

theorem Settles.succeeds {n : ℕ} (h : Settles n s) (k : ℕ) : Succeeds (pass^[k] s) := by
  obtain ⟨hfirst, hclock, hidle⟩ := h
  by_cases hk : k < n
  · exact hfirst k hk
  · rw [iterate_idle hclock hidle (Nat.le_of_not_lt hk)]
    exact Succeeds.idle (hclock ▸ hidle)

/-- Four months after a purchase, the passes of a node alone pay four months of credits. -/
theorem catches_up_months : ∃ s : Store, (∃ b ∈ s.benefits, due s.clock s b = true ∧
    (owed s.clock b).length = 4) ∧ CatchesUp s := by
  obtain ⟨trace, q, -, howed, hclear, hsettles⟩ := Pool.exists_run (fun _ _ _ => True)
    (sessions [.apply Shop.integration Shop.buyer [Shop.purchase] false none,
      .tick (100 * Calendar.day)] (Shop.new (Shop.catalog [Shop.later])))
    (List.replicate 3 0 ++ [1])
    (fun q => (∃ b ∈ q.store.benefits, due q.store.clock q.store b = true ∧
      (owed q.store.clock b).length = 4) ∧ Clear q.store ∧ Settles 4 q.store) (by decide +kernel)
  exact ⟨q.store, howed, (catches_up_iff hsettles.succeeds).mpr hclear⟩

/-- A receipt passed on after its first slot was paid is due at that slot, whose grant is of the
cycle before: every pass meets the grant again and pays nothing. -/
theorem catches_up_fails : ¬∀ (calls : List Call) (s : Store) (trace : List (Turn Store))
    (q : Sessions), Undelivered s → Pool.Run (fun _ _ _ => True) (sessions calls s) trace q →
    (∀ n, Succeeds (pass^[n] q.store)) → CatchesUp q.store := by
  intro h
  obtain ⟨trace, q, run, ⟨benefit, hb, hlist, hslot, grant, hg, hkey, hc⟩, hs⟩ :=
    Pool.exists_run (fun _ _ _ => True)
      (sessions [.apply Shop.integration Shop.buyer [Shop.purchase] false none, .processDue,
        .apply Shop.integration Shop.friend [Shop.purchase] false none]
        (Shop.new (Shop.catalog [Shop.later])))
      (List.replicate 3 0 ++ List.replicate 4 1 ++ List.replicate 5 2)
      (fun q => (∃ b ∈ q.store.benefits, dueIds q.store.clock q.store = [b.id] ∧
        dueSlot b q.store.clock = some Shop.opening ∧ ∃ g ∈ q.store.grants,
          g.grantKey = (b.id, cycleKey Shop.opening) ∧ g.cycle ≠ b.cycle) ∧ Succeeds q.store)
      (by decide +kernel)
  have hstuck := pass_stuck hs hlist hb hslot hg hkey hc
  have hpasses : ∀ n, pass^[n] q.store = q.store := fun n => Function.iterate_fixed hstuck n
  obtain ⟨n, hn⟩ := (h _ _ trace q ⟨rfl, rfl, rfl⟩ run fun n => by rw [hpasses]; exact hs).pays
  obtain ⟨hidle, -⟩ := hn n le_rfl
  rw [hpasses, hlist] at hidle
  cases hidle

end FastKit
