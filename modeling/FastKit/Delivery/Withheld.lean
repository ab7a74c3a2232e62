import FastKit.Delivery.Activations
import FastKit.Delivery.Repeats
import FastKit.Runs

/-! # What a policy withheld

A cycle nothing was handed out in moves the schedule on as a delivered one does. No activation
comes back to the benefit, whatever the subscription has become since, and only a due pass that
lists one of its later slots hands it over.
-/

namespace FastKit
open Transaction Transaction.Program

/-- The benefit had a cycle that was closed. -/
def HadTurn (id : ℕ) (s : Store) : Prop :=
  ∃ b, s.benefits.get id = some b ∧ b.lastGrantAt.isSome = true

/-- A due pass would open a grant of the benefit's slot: it lists the benefit, whose schedule
comes to the slot, and no grant has the name of the slot. -/
structure TakesSlot (id slot : ℕ) (s : Store) : Prop where
  listed : id ∈ dueIds s.clock s
  comes : ∃ b, s.benefits.get id = some b ∧ dueSlot b s.clock = some slot
  free : ∀ g ∈ s.grants, g.grantKey ≠ (id, cycleKey slot)

section Turn
variable {id slot moment : ℕ} {ids : List ℕ} {s t u : Store} {benefit : SubscriptionBenefit}
  {key : CycleKey} {grant : BenefitGrant}

theorem HadTurn.congr (h : HadTurn id s) (ht : t.benefits.get id = s.benefits.get id) :
    HadTurn id t := by
  obtain ⟨b, hget, hlast⟩ := h
  exact ⟨b, ht.trans hget, hlast⟩

theorem HadTurn.closedBy (h : HadTurn id s) (benefit : SubscriptionBenefit) (grant : BenefitGrant) :
    HadTurn id (closedBy benefit grant s) := by
  unfold FastKit.closedBy
  split_ifs
  · obtain ⟨b, hget, hlast⟩ := h
    refine ⟨_, by rw [get_advanced, hget]; rfl, ?_⟩
    dsimp only
    split_ifs
    · rfl
    · exact hlast
  · exact h

theorem closedBy_get {b : SubscriptionBenefit} (h : s.benefits.get id = some b) :
    ∃ b', (closedBy benefit grant s).benefits.get id = some b' := by
  unfold closedBy
  split_ifs
  · exact ⟨_, by rw [get_advanced, h]; rfl⟩
  · exact ⟨b, h⟩

/-- A closed cycle of the benefit is one it had. -/
theorem hadTurn_closedBy {b : SubscriptionBenefit} (hget : s.benefits.get benefit.id = some b)
    (hcycle : b.cycle = grant.cycle) (hactive : b.status = .active)
    (hclosed : grant.status.advances = true) : HadTurn benefit.id (closedBy benefit grant s) := by
  have hid : b.id = benefit.id := Table.id_of_get hget
  rw [closedBy, if_pos hclosed]
  refine ⟨_, by rw [get_advanced, hget]; rfl, ?_⟩
  simp [advances, hid, hcycle, hactive]

theorem HadTurn.ran (h : HadTurn id s) (hran : Ran benefit key slot s t) : HadTurn id t := by
  cases hran with
  | held once => exact h
  | met found named => exact h.closedBy _ _
  | @opened grant _ free cycled => exact (h.closedBy benefit grant).congr (by rw [cycled.benefits])

theorem HadTurn.turned {j : ℕ} (h : HadTurn id s) (hturn : Turned moment j s t) : HadTurn id t := by
  cases hturn with
  | @passed benefit moved get resolved =>
    obtain ⟨b, hget, hlast⟩ := h
    have hstill : Still fun b : SubscriptionBenefit => { b with nextGrantAt := moved.nextGrantAt } :=
      fun _ => ⟨rfl, rfl⟩
    refine ⟨_, (Table.get_modify hstill).trans (by rw [hget]; rfl), ?_⟩
    dsimp only
    split_ifs <;> exact hlast
  | met get resolved found key => exact h.closedBy _ _
  | @paid benefit _ _ grant _ get resolved free cycled =>
    exact (h.closedBy benefit grant).congr (by rw [cycled.benefits])

theorem HadTurn.turns (h : HadTurn id s) (hturns : Turns moment ids s t) : HadTurn id t := by
  induction hturns with
  | nil => exact h
  | cons turn _ ih => exact ih (h.turned turn)

/-- What a cycle of a benefit adds is a grant of it. -/
theorem Ran.grown (h : Ran benefit key slot s t) : ∃ new, t.grants.rows = s.grants.rows ++ new ∧
    ∀ g ∈ new, g.subscriptionBenefitId = benefit.id := by
  cases h with
  | held once => exact ⟨[], (List.append_nil _).symm, by simp⟩
  | met found named => exact ⟨[], by rw [closedBy_grants, List.append_nil], by simp⟩
  | opened free cycled =>
    refine ⟨_, cycled.grants, fun g hg => ?_⟩
    obtain ⟨id, hname⟩ := cycled.name
    rw [List.mem_singleton.mp hg]
    exact congrArg (·.2.1) hname

/-- The rows a table lacks are the ones it was added. -/
theorem exists_added {new : List BenefitGrant} (h : t.grants.rows = s.grants.rows ++ new)
    {P : BenefitGrant → Prop} :
    (∃ g ∈ t.grants, s.grants.Lacks g ∧ P g) ↔ ∃ g ∈ new, P g := by
  constructor
  · rintro ⟨g, hg, hlacks, hP⟩
    rw [← Table.mem_rows, h] at hg
    exact ⟨g, (List.mem_append.mp hg).resolve_left fun hg => hlacks g hg rfl, hP⟩
  · rintro ⟨g, hg, hP⟩
    refine ⟨g, ?_, lacks_of_added h hg, hP⟩
    rw [← Table.mem_rows, h]
    exact List.mem_append_right _ hg

end Turn

section Pass
variable {id slot moment : ℕ} {ids : List ℕ} {s t : Store}

/-- The turn a benefit has in a pass, which finds it as the pass did and leaves it as the pass
does. -/
theorem Turns.own (h : Turns moment ids s t) (hnodup : ids.Nodup) (hmem : id ∈ ids) :
    ∃ (v w : Store) (before later : List BenefitGrant), Turned moment id v w ∧
      v.benefits.get id = s.benefits.get id ∧ t.benefits.get id = w.benefits.get id ∧
      v.grants.rows = s.grants.rows ++ before ∧ t.grants.rows = w.grants.rows ++ later ∧
      (∀ g ∈ before, OfSlot g ∧ g.subscriptionBenefitId ≠ id) ∧
      ∀ g ∈ later, g.subscriptionBenefitId ≠ id := by
  obtain ⟨first, rest, rfl⟩ := List.append_of_mem hmem
  have hfirst : id ∉ first := fun h =>
    (List.nodup_append.mp hnodup).2.2 id h id List.mem_cons_self rfl
  have hrest : id ∉ rest := (List.nodup_cons.mp (List.nodup_append.mp hnodup).2.1).1
  obtain ⟨v, hbefore, hafter⟩ := h.split
  obtain ⟨before, hrows, hof⟩ := hbefore.grown
  generalize hlist : id :: rest = more at hafter
  cases hafter with
  | nil => cases hlist
  | @cons _ _ _ w _ turn turns =>
    obtain ⟨rfl, rfl⟩ := List.cons.inj hlist
    obtain ⟨later, hrows', hof'⟩ := turns.grown
    refine ⟨v, w, before, later, turn, hbefore.others hfirst, turns.others hrest, hrows, hrows',
      fun g hg => ⟨(hof g hg).1, fun heq => ?_⟩, fun g hg heq => ?_⟩
    · exact hfirst (heq ▸ (hof g hg).2)
    · exact hrest (heq ▸ (hof' g hg).2)

/-- What a pass opens of a benefit is a grant of the slot it takes. -/
theorem Turns.opened_iff (h : Turns s.clock ids s t) (hids : ids = dueIds s.clock s)
    {new : List BenefitGrant} (hnew : t.grants.rows = s.grants.rows ++ new) :
    (∃ g ∈ new, g.subscriptionBenefitId = id ∧ g.scheduledAt = slot) ↔ TakesSlot id slot s := by
  have hnodup : ids.Nodup := hids ▸ nodup_dueIds _ _
  by_cases hmem : id ∈ ids
  · obtain ⟨v, w, before, later, turn, hsame, -, hv, ht, hbefore, hlater⟩ := h.own hnodup hmem
    have hnone : ∀ added, w.grants.rows = v.grants.rows ++ added → new = before ++ added ++ later := by
      intro added hw
      rw [ht, hw, hv] at hnew
      simpa using hnew.symm
    have hadded : ∀ added, w.grants.rows = v.grants.rows ++ added →
        ((∃ g ∈ new, g.subscriptionBenefitId = id ∧ g.scheduledAt = slot) ↔
          ∃ g ∈ added, g.subscriptionBenefitId = id ∧ g.scheduledAt = slot) := by
      intro added hw
      rw [hnone added hw]
      constructor
      · rintro ⟨g, hg, howner, hslot⟩
        rcases List.mem_append.mp hg with hg | hg
        · rcases List.mem_append.mp hg with hg | hg
          · exact absurd howner (hbefore g hg).2
          · exact ⟨g, hg, howner, hslot⟩
        · exact absurd howner (hlater g hg)
      · rintro ⟨g, hg, h⟩
        exact ⟨g, List.mem_append_left _ (List.mem_append_right _ hg), h⟩
    cases turn with
    | passed get resolved =>
      rw [hadded [] (List.append_nil _).symm]
      refine iff_of_false (by simp) fun h => ?_
      obtain ⟨b, hget, hslot⟩ := h.comes
      obtain rfl := Option.some.inj ((hsame.symm.trans get).symm.trans hget)
      rw [dueSlot, resolved] at hslot
      cases hslot
    | @met benefit _ slot' grant get resolved found key =>
      rw [hadded [] (by rw [closedBy_grants, List.append_nil])]
      refine iff_of_false (by simp) fun h => ?_
      have hid : benefit.id = id := Table.id_of_get get
      rw [hid] at key
      obtain ⟨b, hget, hslot⟩ := h.comes
      obtain rfl := Option.some.inj ((hsame.symm.trans get).symm.trans hget)
      rw [dueSlot, resolved] at hslot
      obtain rfl := Option.some.inj hslot
      rw [← Table.mem_rows, hv] at found
      rcases List.mem_append.mp found with hg | hg
      · exact h.free grant hg key
      · have hof := (hbefore grant hg).1
        rw [OfSlot, key] at hof
        exact (hbefore grant hg).2 (Prod.mk.inj hof).1.symm
    | @paid benefit _ slot' grant _ get resolved free cycled =>
      rw [hadded [grant] cycled.grants]
      obtain ⟨-, howner, hscheduled, -⟩ := cycled.ofSlot
      have hid : benefit.id = id := Table.id_of_get get
      have hdue : dueSlot benefit s.clock = some slot' := by
        rw [dueSlot, resolved]
        rfl
      have hfree : ∀ g ∈ s.grants, g.grantKey ≠ (id, cycleKey slot') := by
        intro g hg
        rw [← hid]
        refine free g ?_
        rw [← Table.mem_rows, hv]
        exact List.mem_append_left _ hg
      simp only [List.mem_singleton, exists_eq_left, howner, hid, hscheduled, true_and]
      constructor
      · rintro rfl
        exact ⟨hids ▸ hmem, ⟨benefit, hsame.symm.trans get, hdue⟩, hfree⟩
      · intro h
        obtain ⟨b, hget, hslot⟩ := h.comes
        obtain rfl := Option.some.inj ((hsame.symm.trans get).symm.trans hget)
        exact Option.some.inj (hdue.symm.trans hslot)
  · obtain ⟨new', hrows, hnew'⟩ := h.grown
    obtain rfl : new = new' := List.append_cancel_left (hnew.symm.trans hrows)
    constructor
    · rintro ⟨g, hg, howner, -⟩
      exact absurd (howner ▸ (hnew' g hg).2) hmem
    · exact fun h => absurd (hids ▸ h.listed) hmem

/-- A cycle a pass opened and closed is one the benefit had. -/
theorem Turns.hadTurn (h : Turns s.clock ids s t) (hids : ids = dueIds s.clock s)
    {new : List BenefitGrant} (hnew : t.grants.rows = s.grants.rows ++ new) {g : BenefitGrant}
    (hg : g ∈ new) (howner : g.subscriptionBenefitId = id) (hclosed : g.status.advances = true) :
    HadTurn id t := by
  have hnodup : ids.Nodup := hids ▸ nodup_dueIds _ _
  have hmem : id ∈ ids := by
    obtain ⟨new', hrows, hnew'⟩ := h.grown
    obtain rfl : new = new' := List.append_cancel_left (hnew.symm.trans hrows)
    exact howner ▸ (hnew' g hg).2
  obtain ⟨v, w, before, later, turn, hsame, hlast, hv, ht, hbefore, hlater⟩ := h.own hnodup hmem
  refine HadTurn.congr ?_ hlast
  have hadded : ∀ added, w.grants.rows = v.grants.rows ++ added → g ∈ added := by
    intro added hw
    rw [ht, hw, hv] at hnew
    have hnew : new = before ++ added ++ later := by simpa using hnew.symm
    rw [hnew] at hg
    rcases List.mem_append.mp hg with hg | hg
    · exact (List.mem_append.mp hg).resolve_left fun hg => (hbefore g hg).2 howner
    · exact absurd howner (hlater g hg)
  cases turn with
  | passed get resolved => exact absurd (hadded [] (List.append_nil _).symm) List.not_mem_nil
  | met get resolved found key =>
    exact absurd (hadded [] (by rw [closedBy_grants, List.append_nil])) List.not_mem_nil
  | @paid benefit _ slot' grant _ get resolved free cycled =>
    obtain rfl := List.mem_singleton.mp (hadded [grant] cycled.grants)
    have hid : benefit.id = id := Table.id_of_get get
    obtain ⟨b, hget, hdue⟩ := due_of_mem_dueIds (hids ▸ hmem)
    obtain rfl := Option.some.inj ((hsame.symm.trans get).symm.trans hget)
    have hactive : benefit.status = .active := by
      simp only [due, Bool.and_eq_true, beq_iff_eq] at hdue
      exact hdue.1.1.1.1
    have hcycle : benefit.cycle = g.cycle := cycled.ofSlot.2.2.2.symm
    have hthis : HadTurn benefit.id (closedBy benefit g v) :=
      hadTurn_closedBy (hid.symm ▸ get) hcycle hactive hclosed
    exact HadTurn.congr (hid ▸ hthis) (by rw [cycled.benefits])

end Pass

section Activation
variable {id subscriptionId : ℕ} {s t : Store}

theorem HadTurn.snapshots : Snapshots fun t => HadTurn id t ∧ t.grants = s.grants where
  entitlements := fun _ h => ⟨h.1.congr rfl, h.2⟩
  dated := by
    rintro t p status next ⟨⟨b, hget, hlast⟩, hgrants⟩
    have hstill : Still fun b : SubscriptionBenefit => { b with
        status := status
        nextGrantAt := next } := fun _ => ⟨rfl, rfl⟩
    refine ⟨⟨_, (Table.get_modify hstill).trans (by rw [hget]; rfl), ?_⟩, hgrants⟩
    dsimp only
    split_ifs <;> exact hlast
  inserted := by
    rintro t row benefits make ⟨⟨b, hget, hlast⟩, hgrants⟩ hi
    exact ⟨⟨b, Table.get_insert_of_get hi hget, hlast⟩, hgrants⟩

theorem HadTurn.all (h : HadTurn id s) :
    AllBenefits (fun b => b.id = id → b.lastGrantAt.isSome = true) s := by
  intro row hr hid
  obtain ⟨b, hget, hlast⟩ := h
  obtain rfl : row = b := Table.eq_of_id hr (Table.mem_of_get hget)
    (hid.trans (Table.id_of_get hget).symm)
  exact hlast

/-- No activation comes back to a benefit that had a cycle. -/
theorem activate_passes (h : HadTurn id s) : (activate subscriptionId).Meets lone
    (Ends Memory.Bare fun _ t => HadTurn id t ∧ ∃ new, t.grants.rows = s.grants.rows ++ new ∧
      ∀ g ∈ new, g.subscriptionBenefitId ≠ id) Memory.empty Memory.empty s s := by
  let R : Store → Prop := fun t => HadTurn id t ∧ ∃ new, t.grants.rows = s.grants.rows ++ new ∧
    ∀ g ∈ new, g.subscriptionBenefitId ≠ id
  have hR : ∀ t : Store, HadTurn id t ∧ t.grants = s.grants → R t := fun t ht =>
    ⟨ht.1, [], by rw [ht.2, List.append_nil], by simp⟩
  refine activate_lone HadTurn.snapshots hR ?_ Memory.Bare.empty ⟨h, rfl⟩
  intro v ids hv _
  refine ⟨fun b => b.id = id → b.lastGrantAt.isSome = true, R, fun _ _ _ _ _ => rfl, hv.1.all,
    hR v hv, fun _ h => h, ?_⟩
  rintro c key slot v w - hc hnone - ⟨hturn, new, hrows, hnew⟩ hran
  obtain ⟨added, hadded, hof⟩ := hran.grown
  refine ⟨hturn.ran hran, new ++ added, by rw [hadded, hrows, List.append_assoc], fun g hg => ?_⟩
  rcases List.mem_append.mp hg with hg | hg
  · exact hnew g hg
  · intro heq
    have hlast := hc ((hof g hg).symm.trans heq)
    rw [hnone] at hlast
    cases hlast

/-- A cycle an activation opened and closed is one the benefit had. -/
theorem activate_hadTurn : (activate subscriptionId).Meets lone
    (Ends Memory.Bare fun _ t => ∃ new, t.grants.rows = s.grants.rows ++ new ∧
      ∀ g ∈ new, g.subscriptionBenefitId = id → g.status.advances = true → HadTurn id t)
    Memory.empty Memory.empty s s := by
  let R : Store → Prop := fun t => ∃ new, t.grants.rows = s.grants.rows ++ new ∧
    ∀ g ∈ new, g.subscriptionBenefitId = id → g.status.advances = true → HadTurn id t
  have hR : ∀ t : Store, t.grants = s.grants → R t := fun t ht =>
    ⟨[], by rw [ht, List.append_nil], by simp⟩
  have hI : Snapshots fun t => t.grants = s.grants :=
    ⟨fun _ h => h, fun _ _ _ h => h, fun h _ => h⟩
  refine activate_lone hI hR ?_ Memory.Bare.empty rfl
  intro v ids hv hlive
  by_cases hmem : id ∈ ids
  · obtain ⟨row, hget, hactive⟩ := hlive id hmem
    let C : SubscriptionBenefit → Prop := fun b =>
      b.id = id → b.cycle = row.cycle ∧ b.status = .active
    refine ⟨C, fun t => (∃ b, t.benefits.get id = some b) ∧ R t, fun _ _ _ h => h, ?_,
      ⟨⟨row, hget⟩, hR v hv⟩, fun _ h => h.2, ?_⟩
    · intro b hb hid
      obtain rfl : b = row := Table.eq_of_id hb (Table.mem_of_get hget)
        (hid.trans (Table.id_of_get hget).symm)
      exact ⟨rfl, hactive⟩
    · rintro c key slot v w - hc - hall ⟨⟨b, hb⟩, new, hrows, hnew⟩ hran
      cases hran with
      | held once => exact ⟨⟨b, hb⟩, new, hrows, hnew⟩
      | @met grant found named =>
        refine ⟨?_, new, by rw [closedBy_grants, hrows], fun g hg howner hclosed =>
          (hnew g hg howner hclosed).closedBy _ _⟩
        exact closedBy_get hb
      | @opened grant _ free cycled =>
        obtain ⟨k, hname⟩ := cycled.name
        have howner : grant.subscriptionBenefitId = c.id := congrArg (·.2.1) hname
        have hcycle : grant.cycle = c.cycle := congrArg (·.2.2.2.1) hname
        refine ⟨?_, new ++ [grant], by rw [cycled.grants, hrows, List.append_assoc], ?_⟩
        · rw [cycled.benefits]
          exact closedBy_get hb
        · intro g hg hid hclosed
          have hsame : w.benefits.get id = (closedBy c grant v).benefits.get id := by
            rw [cycled.benefits]
          refine HadTurn.congr ?_ hsame
          rcases List.mem_append.mp hg with hg | hg
          · exact (hnew g hg hid hclosed).closedBy _ _
          · obtain rfl := List.mem_singleton.mp hg
            obtain rfl : c.id = id := howner.symm.trans hid
            obtain ⟨hbcycle, hbactive⟩ := hall b (Table.mem_of_get hb) (Table.id_of_get hb)
            exact hadTurn_closedBy hb (hbcycle.trans ((hc rfl).1.symm.trans hcycle.symm)) hbactive hclosed
  · refine ⟨fun _ => True, fun t => ∃ new, t.grants.rows = s.grants.rows ++ new ∧
      ∀ g ∈ new, g.subscriptionBenefitId ≠ id, fun _ _ _ _ => trivial, fun _ _ => trivial,
      ⟨[], by rw [hv, List.append_nil], by simp⟩, ?_, ?_⟩
    · rintro t ⟨new, hrows, hnew⟩
      exact ⟨new, hrows, fun g hg howner => absurd howner (hnew g hg)⟩
    · rintro c key slot v w hc - - - ⟨new, hrows, hnew⟩ hran
      obtain ⟨added, hadded, hof⟩ := hran.grown
      refine ⟨new ++ added, by rw [hadded, hrows, List.append_assoc], fun g hg => ?_⟩
      rcases List.mem_append.mp hg with hg | hg
      · exact hnew g hg
      · exact fun heq => hmem (heq ▸ hof g hg ▸ hc)

end Activation

/-- What a node does for the benefits of a subscription, time passing meanwhile. -/
inductive Visit where
  | activate
  | processDue
  | tick (duration : ℕ)

def Visit.call (subscriptionId : ℕ) : Visit → Call
  | .activate => .activate subscriptionId
  | .processDue => .processDue
  | .tick duration => .tick duration

/-- A due pass opens the slot it takes, and nothing else does. -/
def Visit.Opens (id slot : ℕ) (s : Store) : Visit → Prop
  | .processDue => TakesSlot id slot s
  | _ => False

/-- One of the visits, each from the store the ones before it left, opens a slot of the
benefit. -/
def Reaches (subscriptionId id slot : ℕ) : List Visit → Store → Prop
  | [], _ => False
  | visit :: rest, s => visit.Opens id slot s ∨
    ∃ t, (visit.call subscriptionId).alone s = .ok t ∧ Reaches subscriptionId id slot rest t

/-- What a benefit that had a cycle is left with, and the slots it was given a grant of. -/
structure Visited (id : ℕ) (s : Store) (opened : ℕ → Prop) (t : Store) : Prop where
  hadTurn : HadTurn id t
  grown : ∃ new, t.grants.rows = s.grants.rows ++ new ∧
    ∀ slot, (∃ g ∈ new, g.subscriptionBenefitId = id ∧ g.scheduledAt = slot) ↔ opened slot

section Visits
variable {id subscriptionId slot : ℕ} {s t u : Store} {visit : Visit}

theorem Call.alone_lone {c : Call} {R : Store → Prop} (hok : c.alone s = .ok t)
    (h : c.serve.Meets lone (Ends Memory.Bare fun _ t => R t) Memory.empty Memory.empty s s) : R t := by
  obtain ⟨g, hends⟩ := run_of_meets trivial (fun _ _ => rfl) h
  unfold Call.alone at hok
  generalize c.serve.run Memory.empty s s = ended at hok hends
  obtain ⟨e | p, base, view⟩ := ended
  · cases hok
  · obtain rfl := Except.ok.inj hok
    obtain ⟨-, hsame, hR⟩ := hends
    change base = view at hsame
    rw [hsame]
    exact hR

theorem lone_discarding {α : Type} {c : Db α} {R : Store → Prop} {g m : Memory} {b v : Store}
    (h : c.Meets lone (Ends Memory.Bare fun _ t => R t) g m b v) :
    (do let _ ← c : Db Unit).Meets lone (Ends Memory.Bare fun _ t => R t) g m b v := by
  refine h.bind ?_ fun _ _ _ _ h => h
  rintro g a m b v h
  exact h

theorem processDue_lone : processDue.Meets lone
    (Ends Memory.Bare fun _ t => Turns s.clock (dueIds s.clock s) s t) Memory.empty Memory.empty s s := by
  simp only [processDue, now, meets_bind, meets_query, ending_ok]
  exact processEach_lone Memory.Bare.empty

theorem Visit.visited (hs : HadTurn id s) (hok : (visit.call subscriptionId).alone s = .ok t) :
    Visited id s (fun slot => visit.Opens id slot s) t := by
  cases visit with
  | activate =>
    obtain ⟨hturn, new, hrows, hnew⟩ := Call.alone_lone hok (lone_discarding (activate_passes hs))
    refine ⟨hturn, new, hrows, fun slot => iff_of_false ?_ (fun h => h)⟩
    rintro ⟨g, hg, howner, -⟩
    exact hnew g hg howner
  | processDue =>
    have hturns := Call.alone_lone hok (lone_discarding processDue_lone)
    obtain ⟨new, hrows, -⟩ := hturns.grown
    exact ⟨hs.turns hturns, new, hrows, fun slot => hturns.opened_iff rfl hrows⟩
  | tick duration =>
    obtain rfl := Except.ok.inj hok
    refine ⟨hs.congr rfl, [], (List.append_nil _).symm, fun slot => iff_of_false ?_ (fun h => h)⟩
    simp

theorem visited_after {visits : List Visit} (hs : HadTurn id s)
    (hok : after (visits.map (Visit.call subscriptionId)) s = .ok t) :
    Visited id s (fun slot => Reaches subscriptionId id slot visits s) t := by
  induction visits generalizing s with
  | nil =>
    obtain rfl := Except.ok.inj hok
    exact ⟨hs, [], (List.append_nil _).symm, fun slot => iff_of_false (by simp) (fun h => h)⟩
  | cons visit rest ih =>
    rw [List.map_cons, after] at hok
    cases hcall : (visit.call subscriptionId).alone s with
    | error e =>
      rw [hcall] at hok
      cases hok
    | ok w =>
      rw [hcall] at hok
      obtain ⟨hturn, first, hfirst, hopens⟩ := visit.visited hs hcall
      obtain ⟨hlast, later, hlater, hreaches⟩ := ih hturn hok
      refine ⟨hlast, first ++ later, by rw [hlater, hfirst, List.append_assoc], fun slot => ?_⟩
      have hrest : (∃ t, (visit.call subscriptionId).alone s = .ok t ∧
          Reaches subscriptionId id slot rest t) ↔ Reaches subscriptionId id slot rest w := by
        rw [hcall]
        simp
      simp only [Reaches, hrest, ← hopens slot, ← hreaches slot, List.mem_append, or_and_right,
        exists_or]

end Visits

/-- A grant of the benefit was skipped because the plan's policy withheld it. -/
def Withheld (id : ℕ) (s t : Store) : Prop := ∃ g ∈ t.grants, s.grants.Lacks g ∧
  g.subscriptionBenefitId = id ∧ g.status = .skipped ∧ g.errorCode = some "withheld_by_plan_policy"

/-- The subscription is active, on a row that changed nothing of the benefits. -/
structure Becomes (row : Subscription) (s t : Store) : Prop where
  stored : t.subscriptions.get row.id = some row
  active : row.status = .active
  delivers : row.benefitStatus = .active
  benefits : t.benefits = s.benefits
  grants : t.grants = s.grants

/-- Whether a slot is in the period the subscription is paid for. -/
def Subscription.paidFor (row : Subscription) (slot : ℕ) : Prop :=
  row.currentPeriodStartedAt.all (· ≤ slot) = true ∧ row.currentPeriodEndsAt.all (slot < ·) = true

/-- A benefit was handed over for a slot of a period. -/
def DeliveredFor (id : ℕ) (paid : ℕ → Prop) (s t : Store) : Prop := ∃ g ∈ t.grants,
  s.grants.Lacks g ∧ g.subscriptionBenefitId = id ∧ g.status = .completed ∧ paid g.scheduledAt

section Paid
variable {id subscriptionId : ℕ} {s t u : Store} {visit : Visit}

/-- A benefit that was withheld had its cycle. -/
theorem Withheld.hadTurn (h : Withheld id s t)
    (hok : (visit.call subscriptionId).alone s = .ok t) : HadTurn id t := by
  cases visit with
  | activate =>
    obtain ⟨new, hrows, hnew⟩ : ∃ new, t.grants.rows = s.grants.rows ++ new ∧ ∀ g ∈ new,
        g.subscriptionBenefitId = id → g.status.advances = true → HadTurn id t :=
      Call.alone_lone hok (lone_discarding activate_hadTurn)
    obtain ⟨g, hg, howner, hstatus, -⟩ := (exists_added hrows).mp h
    exact hnew g hg howner (by rw [hstatus]; rfl)
  | processDue =>
    have hturns := Call.alone_lone hok (lone_discarding processDue_lone)
    obtain ⟨new, hrows, -⟩ := hturns.grown
    obtain ⟨g, hg, howner, hstatus, -⟩ := (exists_added hrows).mp h
    exact hturns.hadTurn rfl hrows hg howner (by rw [hstatus]; rfl)
  | tick duration =>
    obtain rfl := Except.ok.inj hok
    obtain ⟨g, hg, hlacks, -⟩ := h
    exact absurd rfl (hlacks g hg)

/-- What a policy withheld is handed over for the period a subscription is then paid for if and
only if a due pass takes a slot of that period, whatever activations and passes come between. -/
theorem withheld_handed_over_iff {s₀ t' : Store} {row : Subscription} {between since : List Visit}
    (hskip : (visit.call row.id).alone s₀ = .ok s) (hwithheld : Withheld id s₀ s)
    (hbetween : after (between.map (Visit.call row.id)) s = .ok t) (hbecomes : Becomes row t t')
    (hsince : after (since.map (Visit.call row.id)) t' = .ok u)
    (hdone : ∀ g ∈ u.grants, t'.grants.Lacks g → g.subscriptionBenefitId = id →
      g.status = .completed) :
    DeliveredFor id row.paidFor t' u ↔ ∃ slot, row.paidFor slot ∧ Reaches row.id id slot since t' := by
  have hturn := (visited_after (hwithheld.hadTurn hskip) hbetween).hadTurn
  have hturn : HadTurn id t' := hturn.congr (by rw [hbecomes.benefits])
  obtain ⟨-, new, hrows, hopened⟩ := visited_after hturn hsince
  constructor
  · rintro ⟨g, hg, hlacks, howner, -, hpaid⟩
    refine ⟨g.scheduledAt, hpaid, (hopened _).mp ?_⟩
    rw [← Table.mem_rows, hrows] at hg
    exact ⟨g, (List.mem_append.mp hg).resolve_left fun hg => hlacks g hg rfl, howner, rfl⟩
  · rintro ⟨slot, hpaid, hreaches⟩
    obtain ⟨g, hg, howner, rfl⟩ := (hopened slot).mpr hreaches
    have hlacks := lacks_of_added hrows hg
    have hmem : g ∈ u.grants := by
      rw [← Table.mem_rows, hrows]
      exact List.mem_append_right _ hg
    exact ⟨g, hmem, hlacks, howner, hdone g hmem hlacks howner, hpaid⟩

/-- The benefit is there, and its cadence knows no interval. -/
def Once (id : ℕ) (s : Store) : Prop :=
  ∃ b, s.benefits.get id = some b ∧ b.cadence.interval = none

theorem Once.path (h : Once id s) (c : Path .any s t) : Once id t := by
  obtain ⟨b, hget, hnone⟩ := h
  obtain ⟨b', hb', hp⟩ := Known.path ⟨b, Table.mem_of_get hget, rfl⟩ c
  have hcadence : b'.cadence = b.cadence := congrArg (·.cadence) hp
  have hid : b.id = id := Table.id_of_get hget
  have hsame : b'.id = b.id := congrArg (·.id) hp
  obtain rfl : b'.id = id := hsame.trans hid
  exact ⟨b', Table.get_of_mem hb', hcadence ▸ hnone⟩

/-- What does not recur is on no pass's list. -/
theorem Once.not_reaches {slot : ℕ} {visits : List Visit} (h : Once id s) :
    ¬Reaches subscriptionId id slot visits s := by
  induction visits generalizing s with
  | nil => exact fun hreaches => hreaches
  | cons visit rest ih =>
    rintro (hopens | ⟨t, hok, hreaches⟩)
    · cases visit with
      | processDue =>
        obtain ⟨b, hget, hnone⟩ := h
        obtain ⟨every, -, hevery, -⟩ := interval_of_dueSlot hopens.comes.choose_spec.2
        obtain rfl := Option.some.inj (hget.symm.trans hopens.comes.choose_spec.1)
        rw [hnone] at hevery
        cases hevery
      | _ => exact hopens
    · exact ih (h.path (Call.alone_path hok)) hreaches

/-- What does not recur and was withheld is never handed over. -/
theorem once_withheld_not_delivered {s₀ t' : Store} {row : Subscription}
    {between since : List Visit} {paid : ℕ → Prop}
    (hskip : (visit.call row.id).alone s₀ = .ok s) (hwithheld : Withheld id s₀ s)
    (honce : Once id s) (hbetween : after (between.map (Visit.call row.id)) s = .ok t)
    (hbecomes : Becomes row t t') (hsince : after (since.map (Visit.call row.id)) t' = .ok u) :
    ¬DeliveredFor id paid t' u := by
  rintro ⟨g, hg, hlacks, howner, -, -⟩
  have hturn : HadTurn id t' :=
    ((visited_after (hwithheld.hadTurn hskip) hbetween).hadTurn).congr (by rw [hbecomes.benefits])
  have honce' : Once id t' := by
    unfold Once
    rw [hbecomes.benefits]
    exact honce.path (path_after hbetween)
  obtain ⟨-, new, hrows, hopened⟩ := visited_after hturn hsince
  rw [← Table.mem_rows, hrows] at hg
  have hnew := (List.mem_append.mp hg).resolve_left fun hg => hlacks g hg rfl
  exact honce'.not_reaches ((hopened g.scheduledAt).mp ⟨g, hnew, howner, rfl⟩)

end Paid

instance {id : ℕ} {s t : Store} : Decidable (Withheld id s t) := by
  unfold Withheld
  infer_instance

instance {row : Subscription} {slot : ℕ} : Decidable (row.paidFor slot) := by
  unfold Subscription.paidFor
  infer_instance

instance {id : ℕ} {row : Subscription} {s t : Store} :
    Decidable (DeliveredFor id row.paidFor s t) := by
  unfold DeliveredFor
  infer_instance

namespace Shop

/-- A purchase of the basic plan whose first ten days are a trial. -/
def trial : ProviderPurchase :=
  { purchase with trial := true, status := none, periodEndsAt := some (opening + 10 * Calendar.day) }

def paying (s : Store) : Store :=
  { s with
    clock := s.clock + 10 * Calendar.day
    subscriptions := s.subscriptions.modify (·.id == 0)
      (fun r => { r with
        status := .active
        currentPeriodStartedAt := some (opening + 10 * Calendar.day)
        currentPeriodEndsAt := some (opening + 40 * Calendar.day) }) (fun _ => ⟨rfl, rfl⟩) }

/-- An activation withholds the benefit of a trial, the trial is paid, and visits follow. -/
def paid (since : List Visit) (test : Subscription → Store → Store → Bool) (s₀ : Store) : Bool :=
  match (Visit.activate.call 0).alone s₀ with
  | .error _ => false
  | .ok s => decide (Withheld 0 s₀ s) &&
    match (paying s).subscriptions.get 0, after (since.map (Visit.call 0)) (paying s) with
    | some row, .ok u => row.status == .active && row.benefitStatus == .active &&
      test row (paying s) u
    | _, _ => false

theorem exists_paid {since : List Visit} {test : Subscription → Store → Store → Bool} {s₀ : Store}
    (h : paid since test s₀ = true) : ∃ s row u, row.id = 0 ∧
      (Visit.activate.call 0).alone s₀ = .ok s ∧ Withheld 0 s₀ s ∧ Becomes row s (paying s) ∧
      after (since.map (Visit.call 0)) (paying s) = .ok u ∧ test row (paying s) u = true := by
  unfold paid at h
  split at h
  · cases h
  · rename_i s hs
    simp only [Bool.and_eq_true, decide_eq_true_eq] at h
    obtain ⟨hwithheld, h⟩ := h
    split at h
    · rename_i row u hrow hu
      simp only [Bool.and_eq_true, beq_iff_eq] at h
      obtain ⟨⟨hactive, hdelivers⟩, htest⟩ := h
      have hid : row.id = 0 := Table.id_of_get hrow
      exact ⟨s, row, u, hid, hs, hwithheld, ⟨hid ▸ hrow, hactive, hdelivers, rfl, rfl⟩, hu, htest⟩
    · cases h

def trialing (benefit : Benefit) : List Call :=
  [.apply integration buyer [trial] false none, .edit (catalog [benefit])]

end Shop

/-- Monthly credits a trial withheld come with the slot a month after its start. -/
theorem withheld_handed_over_monthly : ∃ (s t u : Store) (row : Subscription),
    Withheld 0 s t ∧ DeliveredFor 0 row.paidFor (Shop.paying t) u ∧ ∃ slot, row.paidFor slot ∧
      Reaches row.id 0 slot [.activate, .tick (25 * Calendar.day), .processDue] (Shop.paying t) := by
  obtain ⟨trace, q, -, h⟩ := Pool.exists_run (fun _ _ _ => True)
    (sessions (Shop.trialing (Shop.credits 102)) (Shop.new (Shop.catalog []))) (List.replicate 2 0 ++ [1])
    (fun q => Shop.paid [.activate, .tick (25 * Calendar.day), .processDue]
      (fun row t u => decide (DeliveredFor 0 row.paidFor t u) && decide (∀ g ∈ u.grants,
        t.grants.Lacks g → g.subscriptionBenefitId = 0 → g.status = .completed)) q.store = true)
    (by decide +kernel)
  obtain ⟨t, row, u, hid, hskip, hwithheld, hbecomes, hsince, htest⟩ := Shop.exists_paid h
  simp only [Bool.and_eq_true, decide_eq_true_eq] at htest
  rw [← hid] at hskip hsince
  have hnothing : after (List.map (Visit.call row.id) []) t = .ok t := rfl
  exact ⟨q.store, t, u, row, hwithheld, htest.1,
    (withheld_handed_over_iff hskip hwithheld hnothing hbecomes hsince htest.2).mp htest.1⟩

/-- Credits granted once, at the activation. -/
def Shop.gift : Benefit := { Shop.credits 103 with cadence := .onActivation }

/-- What is granted at the activation alone and was withheld in a trial is never handed over. -/
theorem withheld_never_handed_over : ¬∀ (calls : List Call) (s : Store) (trace : List (Turn Store))
    (q : Sessions) (id : ℕ) (row : Subscription) (t w t' u : Store) (between since : List Visit),
    Undelivered s → Pool.Run (fun _ _ _ => True) (sessions calls s) trace q →
    (Visit.activate.call row.id).alone q.store = .ok t → Withheld id q.store t →
    after (between.map (Visit.call row.id)) t = .ok w → Becomes row w t' →
    after (since.map (Visit.call row.id)) t' = .ok u → .activate ∈ since → .processDue ∈ since →
    DeliveredFor id row.paidFor t' u := by
  intro h
  obtain ⟨trace, q, run, hpaid⟩ := Pool.exists_run (fun _ _ _ => True)
    (sessions (Shop.trialing Shop.gift) (Shop.new (Shop.catalog []))) (List.replicate 2 0 ++ [1])
    (fun q => Shop.paid [.activate, .tick (25 * Calendar.day), .processDue]
      (fun row t u => decide (¬DeliveredFor 0 row.paidFor t u)) q.store = true)
    (by decide +kernel)
  obtain ⟨t, row, u, hid, hskip, hwithheld, hbecomes, hsince, htest⟩ := Shop.exists_paid hpaid
  rw [← hid] at hskip hsince
  refine of_decide_eq_true htest ?_
  exact h _ _ trace q 0 row t t (Shop.paying t) u [] _ ⟨rfl, rfl, rfl⟩ run hskip hwithheld rfl hbecomes
    hsince (by simp) (by simp)

end FastKit
