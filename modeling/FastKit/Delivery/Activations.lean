import FastKit.Delivery.Turns

/-! # An activation nobody runs beside

An activation resumes or takes the snapshot of what its entitlements promise, which leaves every
grant as it is, and then runs the first cycle of each benefit that had none.
-/

namespace FastKit
open Transaction Transaction.Program

variable {g m : Memory} {b v s t : Store} {benefit : SubscriptionBenefit} {key : CycleKey}
  {slot id : ℕ} {grant : BenefitGrant}

def AllBenefits (C : SubscriptionBenefit → Prop) (s : Store) : Prop := ∀ b ∈ s.benefits, C b

/-- A session with nothing to flush whose copies of benefits are as `C` has them. -/
structure Memory.Knows (C : SubscriptionBenefit → Prop) (m : Memory) : Prop where
  clean : m.Clean
  copies : ∀ c ∈ m.benefits, C c

/-- The benefit is on, as an activation leaves those it promises. -/
def Live (id : ℕ) (s : Store) : Prop := ∃ b, s.benefits.get id = some b ∧ b.status = .active

theorem Live.dated {p : SubscriptionBenefit → Bool} {status : BenefitStatus} {next : Option ℕ}
    (h : Live id s) (hstatus : status = .active) : Live id { s with
      benefits := s.benefits.modify p
        (fun b => { b with status := status, nextGrantAt := next }) (fun _ => ⟨rfl, rfl⟩) } := by
  obtain ⟨b, hget, hactive⟩ := h
  have hstill : Still fun b : SubscriptionBenefit => { b with
      status := status
      nextGrantAt := next } := fun _ => ⟨rfl, rfl⟩
  refine ⟨_, (Table.get_modify hstill).trans (by rw [hget]; rfl), ?_⟩
  dsimp only
  split_ifs
  · exact hstatus
  · exact hactive

theorem Live.inserted {make : ℕ → SubscriptionBenefit} {row : SubscriptionBenefit}
    {benefits : Table SubscriptionBenefit} (h : Live id s)
    (hi : s.benefits.insert make = some (row, benefits)) :
    Live id { s with benefits := benefits } := by
  obtain ⟨b, hget, hactive⟩ := h
  refine ⟨b, ?_, hactive⟩
  exact Table.get_insert_of_get hi hget

theorem resume_status (anchor moment : ℕ) : (resume benefit anchor moment).status = .active := by
  unfold resume
  split_ifs with h
  · exact h
  · cases benefit.cadence <;> rfl

section Copies
variable {C : SubscriptionBenefit → Prop}
  (hC : ∀ b last next, C b → C { b with lastGrantAt := some last, nextGrantAt := next })
include hC

theorem AllBenefits.closedBy (h : AllBenefits C s) : AllBenefits C (closedBy benefit grant s) := by
  unfold FastKit.closedBy
  split_ifs
  · intro r hr
    obtain ⟨a, ha, rfl⟩ := List.mem_map.mp hr
    split_ifs
    · exact hC a _ _ (h a ha)
    · exact h a ha
  · exact h

theorem Memory.Knows.cycles (benefit : SubscriptionBenefit) :
    Cycles (Memory.Knows C) (AllBenefits C) benefit where
  clean := fun h => h.clean
  flushed := fun h => ⟨Memory.clean_flushed _, h.copies⟩
  expired := fun _ => ⟨Memory.clean_expired _, fun _ hc => absurd hc List.not_mem_nil⟩
  load := by
    refine fun row h => ⟨fun l hl => ?_, h.copies⟩
    rcases List.mem_cons.mp hl with rfl | hl
    · rfl
    · exact h.clean l (List.mem_of_mem_filter hl)
  keepPlan := fun _ h => ⟨h.clean, h.copies⟩
  keepBenefit := by
    intro m t row h ht hrow
    refine ⟨h.clean, fun c hc => ?_⟩
    obtain ⟨a, ha, rfl⟩ := List.mem_map.mp hc
    split_ifs
    · exact ht row hrow
    · exact h.copies a ha
  setGrant := fun _ h => ⟨h.clean, h.copies⟩
  aside := fun hb h => fun r hr => h r (hb ▸ hr)
  closed := fun _ h => h.closedBy hC

theorem Ran.all (h : Ran benefit key slot s t) (hs : AllBenefits C s) : AllBenefits C t := by
  cases h with
  | held once => exact hs
  | met found named => exact hs.closedBy hC
  | opened free cycled =>
    intro r hr
    rw [cycled.benefits] at hr
    exact hs.closedBy hC r hr

/-- The first cycles of an activation leave what each of them leaves. -/
theorem activateEach_lone {K : Store → Prop} {ids : List ℕ}
    (hstep : ∀ c key slot s t, c.id ∈ ids → C c → c.lastGrantAt = none → AllBenefits C s → K s →
      Ran c key slot s t → K t) (hm : m.Knows C) (hv : AllBenefits C v) (hK : K v) :
    (activateEach ids).Meets lone (Ends (Memory.Knows C) fun _ t => AllBenefits C t ∧ K t)
      g m v v := by
  induction ids generalizing g m v with
  | nil => exact ⟨hm, rfl, hv, hK⟩
  | cons j rest ih =>
    have hrest : ∀ c key slot s t, c.id ∈ rest → C c → c.lastGrantAt = none → AllBenefits C s →
        K s → Ran c key slot s t → K t := fun c key slot s t hc =>
      hstep c key slot s t (List.mem_cons_of_mem _ hc)
    have hturn : ∀ c : SubscriptionBenefit, c.id = j → C c → (do
        if c.grantOnActivation && c.lastGrantAt.isNone then
          let moment ← now
          let slot ← require .typeError (firstDue c moment)
          let grant ← runCycle c (activationKey c slot) slot
          let grants ← activateEach rest
          pure (grant.id :: grants)
        else activateEach rest : Db (List ℕ)).Meets lone
          (Ends (Memory.Knows C) fun _ t => AllBenefits C t ∧ K t) g m v v := by
      intro c hid hc
      split_ifs with hfirst
      · rw [now, meets_bind, meets_query, ending_ok]
        cases firstDue c v.clock with
        | none => exact trivial
        | some slot =>
          rw [meets_bind, meets_require_some, ending_ok, meets_bind]
          refine (runCycle_lone (Memory.Knows.cycles hC c) hm hv).mono ?_
          rintro g (e | ⟨grant, m⟩) b t h
          · exact trivial
          · obtain ⟨hm, rfl, hran⟩ := h
            simp only [Bool.and_eq_true, Option.isNone_iff_eq_none] at hfirst
            have hK := hstep c _ _ v _ (hid ▸ List.mem_cons_self) hc hfirst.2 hv hK hran
            rw [ending_ok, meets_bind]
            exact ih hrest hm (hran.all hC hv) hK
      · exact ih hrest hm hv hK
    rw [activateEach, benefitOf, meets_bind, meets_bind, meets_remembered, ending_ok]
    cases hf : m.benefits.find? (·.id == j) with
    | some copy =>
      exact hturn copy (by simpa using List.find?_some hf)
        (hm.copies copy (List.mem_of_find?_eq_some hf))
    | none =>
      rw [meets_bind, meets_query, ending_ok]
      cases hget : v.benefits.get j with
      | none => exact trivial
      | some row => exact hturn row (Table.id_of_get hget) (hv row (Table.mem_of_get hget))

end Copies

/-- What holds of a store goes on holding while a snapshot is taken. -/
structure Snapshots (I : Store → Prop) : Prop where
  entitlements : ∀ {s} (t : Table UserEntitlement), I s → I { s with entitlements := t }
  dated : ∀ {s} (p : SubscriptionBenefit → Bool) (status : BenefitStatus) (next : Option ℕ), I s →
    I { s with
      benefits := s.benefits.modify p
        (fun b => { b with status := status, nextGrantAt := next }) (fun _ => ⟨rfl, rfl⟩) }
  inserted : ∀ {s row t} {make : ℕ → SubscriptionBenefit}, I s →
    s.benefits.insert make = some (row, t) → I { s with benefits := t }

section Snapshot
variable {I : Store → Prop} (hI : Snapshots I)
include hI

theorem leaves_promiseEntitlements (subscription : Subscription) (moment : ℕ)
    (promises : List PlanEntitlement) :
    Leaves Memory.Bare I (promiseEntitlements subscription moment promises) := by
  induction promises with
  | nil => exact leaves_pure []
  | cons promise rest ih =>
    refine Leaves.bind (leaves_insertOrRead (Memory.Bare.carries I) fun _ _ t h _ =>
      hI.entitlements t h) fun o => Leaves.bind (leaves_require _ o) fun row => ?_
    refine Leaves.bind (leaves_execute fun _ h => hI.entitlements _ h) fun _ => ?_
    exact Leaves.bind ih fun _ => leaves_pure _

theorem leaves_reconcileEntitlements (subscription : Subscription) :
    Leaves Memory.Bare I (reconcileEntitlements subscription) := by
  refine Leaves.bind (leaves_query _) fun _ => Leaves.bind (leaves_query _) fun _ => ?_
  refine Leaves.bind (leaves_promiseEntitlements hI _ _ _) fun _ => ?_
  exact Leaves.bind (leaves_execute fun _ h => hI.entitlements _ h) fun _ => leaves_pure _

/-- Every benefit promised is on. -/
theorem promiseBenefits_lone {subscriptionId anchor moment : ℕ} {entitlements : List UserEntitlement}
    {benefits : List Benefit} {ids : List ℕ} (hm : m.Bare) (hv : I v) (hlive : ∀ j ∈ ids, Live j v) :
    (promiseBenefits subscriptionId anchor moment entitlements benefits).Meets lone
      (ending (fun _ p b' v' => p.2.Bare ∧ b' = b ∧ I v' ∧ ∀ j ∈ ids ++ p.1, Live j v')
        fun _ _ _ _ => True) g m b v := by
  induction benefits generalizing ids g m v with
  | nil => exact ⟨hm, rfl, hv, by simpa using hlive⟩
  | cons benefit rest ih =>
    have hrest : ∀ {g m v row}, m.Bare → I v → (∀ j ∈ ids, Live j v) → Live row v → (do
        let promised ← promiseBenefits subscriptionId anchor moment entitlements rest
        pure (row :: promised) : Db (List ℕ)).Meets lone
          (ending (fun _ p b' v' => p.2.Bare ∧ b' = b ∧ I v' ∧ ∀ j ∈ ids ++ p.1, Live j v')
            fun _ _ _ _ => True) g m b v := by
      intro g m v row hm hv hlive hrow
      have hall : ∀ j ∈ ids ++ [row], Live j v := by
        intro j hj
        rcases List.mem_append.mp hj with hj | hj
        · exact hlive j hj
        · exact List.mem_singleton.mp hj ▸ hrow
      refine (ih (g := g) hm hv hall).bind ?_ fun _ _ _ _ h => h
      rintro g promised m b' v' ⟨hm, hb, hv, hlive⟩
      refine ⟨hm, hb, hv, fun j hj => hlive j ?_⟩
      simpa using hj
    rw [promiseBenefits, meets_bind, meets_query, ending_ok]
    cases hfind : v.benefits.find
        (fun b => b.subscriptionId == subscriptionId && b.benefitId == benefit.id) with
    | some row =>
      simp only [writeBenefits]
      rw [meets_bind, meets_execute, ending_ok]
      have hget : v.benefits.get row.id = some row := Table.get_of_mem (Table.mem_of_find hfind)
      refine hrest hm (hI.dated _ _ _ hv) (fun j hj => (hlive j hj).dated (resume_status _ _)) ?_
      have hstill : Still fun b : SubscriptionBenefit => { b with
          status := (resume row anchor moment).status
          nextGrantAt := (resume row anchor moment).nextGrantAt } := fun _ => ⟨rfl, rfl⟩
      refine ⟨_, (Table.get_modify hstill).trans (by rw [hget]; rfl), ?_⟩
      simp [resume_status]
    | none =>
      dsimp only
      cases entitlements.find? (·.entitlementId == benefit.entitlementId) with
      | none => exact trivial
      | some entitlement =>
        rw [meets_bind, meets_require_some, ending_ok]
        simp only [insertOrRead, meets_bind, meets_query, ending_ok, hfind]
        refine Setting.flush_clean hm.clean ?_
        have hm := hm.flushed
        simp only [ending_ok, meets_bind, meets_query]
        split
        · rename_i row t hi
          rw [meets_bind, meets_execute, ending_ok, meets_pure, ending_ok, meets_bind, meets_require_some,
            ending_ok]
          obtain ⟨hrow, hid, -⟩ := Table.insert_eq_some hi
          refine hrest hm (hI.inserted hv hi) (fun j hj => (hlive j hj).inserted hi) ?_
          refine ⟨row, ?_, by rw [hrow]; rfl⟩
          exact Table.get_of_mem ((Table.mem_insert hi).mpr (.inr rfl))
        · rw [meets_query, ending_ok, hfind, Option.map_none]
          exact trivial

theorem snapshotBenefits_lone {subscription : Subscription} {entitlements : List UserEntitlement}
    (hm : m.Bare) (hv : I v) : (snapshotBenefits subscription entitlements).Meets lone
      (ending (fun _ p b' v' => p.2.Bare ∧ b' = b ∧ I v' ∧ ∀ j ∈ p.1, Live j v')
        fun _ _ _ _ => True) g m b v := by
  rw [snapshotBenefits, meets_bind, meets_query, ending_ok, now, meets_bind, meets_query, ending_ok]
  have hnone : ∀ j ∈ ([] : List ℕ), Live j v := by simp
  refine (promiseBenefits_lone hI hm hv hnone).bind ?_ fun _ _ _ _ h => h
  rintro g promised m b' v ⟨hm, hb, hv, hlive⟩
  simp only [writeBenefits]
  rw [meets_bind, meets_execute, ending_ok]
  refine ⟨hm, hb, hI.dated _ _ _ hv, fun j hj => ?_⟩
  obtain ⟨row, hget, hrow⟩ := hlive j hj
  have hid : row.id = j := Table.id_of_get hget
  have hstill : Still fun b : SubscriptionBenefit => { b with
      status := .ended
      nextGrantAt := none } := fun _ => ⟨rfl, rfl⟩
  refine ⟨row, (Table.get_modify hstill).trans ?_, hrow⟩
  rw [hget, Option.map_some, if_neg (by simp [hid, hj])]

/-- What an activation that ends leaves, by what its snapshot and then each of its first cycles
leave. -/
theorem activate_lone {subscriptionId : ℕ} {R : Store → Prop} (hR : ∀ t, I t → R t)
    (hturns : ∀ (v : Store) (ids : List ℕ), I v → (∀ j ∈ ids, Live j v) → ∃ (C : SubscriptionBenefit → Prop)
      (K : Store → Prop), (∀ b last next, C b → C { b with lastGrantAt := some last, nextGrantAt := next }) ∧
        AllBenefits C v ∧ K v ∧ (∀ t, K t → R t) ∧
        ∀ c key slot s t, c.id ∈ ids → C c → c.lastGrantAt = none → AllBenefits C s → K s →
          Ran c key slot s t → K t)
    (hm : m.Bare) (hv : I v) :
    (activate subscriptionId).Meets lone (Ends Memory.Bare fun _ t => R t) g m v v := by
  have hB := Memory.Bare.carries I
  refine Leaves.meets_bind (leaves_flush hB) hm hv hv (fun _ _ _ _ _ _ => trivial) ?_
  rintro _ g m b v hm hb hv
  refine Leaves.meets_bind (leaves_holdSubscription hB _) hm hb hv (fun _ _ _ _ _ _ => trivial) ?_
  rintro subscription g m b v hm hb hv
  split_ifs
  · simp only [expireEntitlements, writeEntitlements, writeBenefits]
    rw [meets_bind, meets_execute, ending_ok, meets_bind, meets_execute, ending_ok]
    refine commit_clean hm.clean ?_
    exact ⟨hm.flushed, rfl, hR _ (hI.dated _ _ _ (hI.entitlements _ hv))⟩
  · refine Leaves.meets_bind (leaves_reconcileEntitlements hI subscription) hm hb hv
      (fun _ _ _ _ _ _ => trivial) ?_
    rintro entitlements g m b v hm hb hv
    refine (snapshotBenefits_lone hI hm hv).bind ?_ fun _ _ _ _ h => h
    rintro g ids m b v ⟨hm, -, hv, hlive⟩
    obtain ⟨C, K, hC, hall, hK, hKR, hstep⟩ := hturns v ids hv hlive
    rw [meets_bind, meets_query, ending_ok, meets_bind, meets_remember, ending_ok]
    have hkept : Memory.Knows C { m with benefits := ids.filterMap v.benefits.get } := by
      refine ⟨hm.clean, fun c hc => ?_⟩
      obtain ⟨j, -, hget⟩ := List.mem_filterMap.mp hc
      exact hall c (Table.mem_of_get hget)
    refine commit_clean hkept.clean ?_
    have hflushed : Memory.Knows C (Memory.flushed { m with benefits := ids.filterMap v.benefits.get }) :=
      ⟨Memory.clean_flushed _, hkept.copies⟩
    refine (activateEach_lone hC hstep hflushed hall hK).bind ?_ fun _ _ _ _ h => h
    rintro g grants m b v ⟨hm, rfl, -, hK⟩
    have hbare : Memory.Bare { m with benefits := [] } := ⟨hm.clean, rfl⟩
    rw [meets_bind, meets_remember, ending_ok]
    refine Leaves.meets_bind (I := (· = b)) (leaves_subscriptionOf (Memory.Bare.carries _) _) hbare
      rfl rfl (fun _ _ _ _ _ _ => trivial) ?_
    rintro _ g m b v hm rfl rfl
    exact ⟨hm, rfl, hKR _ hK⟩

end Snapshot
end FastKit
