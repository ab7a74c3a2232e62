import FastKit.Delivery.Invariants

/-! # A schedule and its closed grants

A due pass that meets the grant of its slot already closed moves the schedule past the
slot where the grant is of the cycle the benefit is in, and leaves it where it is
otherwise.
-/

namespace FastKit
open Transaction Transaction.Program

def dueSlot (b : SubscriptionBenefit) (moment : ℕ) : Option ℕ :=
  (resolveDueSlot b moment).toOption.bind Prod.fst

def nextGrant (id : ℕ) (s : Store) : Option ℕ := (s.benefits.get id).bind (·.nextGrantAt)

variable {m : Memory} {b v : Store}

/-- A clean session has nothing to flush. -/
theorem run_flush_clean (h : m.Clean) : flush.run m b v = (.ok ((), m.flushed), b, v) := by
  have hw : writeLoaded (m.subscriptions.insertionSort (·.loaded.id ≤ ·.loaded.id))
      v.subscriptions = some v.subscriptions :=
    writeLoaded_clean (fun l hl => h l ((List.mem_insertionSort _).mp hl)) _
  simp [flush, run_bind, hw]

theorem run_commit_clean (h : m.Clean) : commit.run m b v = (.ok ((), m.flushed), v, v) := by
  simp [commit, run_bind, run_flush_clean h]

/-- The rows a closed grant of the cycle they are in moves. -/
def advances (benefit : SubscriptionBenefit) (grant : BenefitGrant) (b : SubscriptionBenefit) :
    Bool := b.id == benefit.id && b.cycle == grant.cycle && b.status == .active

/-- The store with the schedule a closed grant moved. -/
def advanced (benefit : SubscriptionBenefit) (grant : BenefitGrant) (s : Store) : Store :=
  { s with
    benefits := s.benefits.modify (advances benefit grant)
      (fun b => { b with
        lastGrantAt := some s.clock
        nextGrantAt := benefit.cadence.interval.map (addInterval grant.scheduledAt) })
      (fun _ => ⟨rfl, rfl⟩) }

theorem get_advanced {benefit : SubscriptionBenefit} {grant : BenefitGrant} {s : Store} {id : ℕ} :
    (advanced benefit grant s).benefits.get id = (s.benefits.get id).map (fun b =>
      if advances benefit grant b then
        { b with
          lastGrantAt := some s.clock
          nextGrantAt := benefit.cadence.interval.map (addInterval grant.scheduledAt) }
      else b) := by
  refine Table.get_modify ?_
  exact fun _ => ⟨rfl, rfl⟩

/-- A pass that meets the closed grant of its slot only advances the schedule by it. -/
theorem run_runCycle_closed {s : Store} {benefit : SubscriptionBenefit} {key : CycleKey}
    (slot : ℕ) {grant : BenefitGrant} (hm : m.Clean) (hb : benefit ∈ s.benefits)
    (hg : grant ∈ s.grants) (hk : grant.grantKey = (benefit.id, key))
    (hclosed : grant.status.advances = true) :
    ∃ m', (runCycle benefit key slot).run m s s =
      (.ok (grant, m'), advanced benefit grant s, advanced benefit grant s) := by
  have hfind : s.grants.find (·.grantKey == (benefit.id, key)) = some grant := by
    obtain ⟨g, hf⟩ := Table.find_isSome (p := fun g => g.grantKey == (benefit.id, key)) hg
      (by simp [hk])
    have hgk : g.grantKey = (benefit.id, key) := by simpa using Table.find_holds hf
    rw [hf, Table.eq_of_key (Table.mem_of_find hf) hg (List.mem_cons_self ..)
      (by rw [hgk, ← hk]; exact List.mem_cons_self ..)]
  obtain ⟨row, hrow⟩ : ∃ row, (advanced benefit grant s).benefits.get benefit.id = some row := by
    have hget : s.benefits.get benefit.id = some benefit := Table.get_of_mem hb
    rw [get_advanced, hget]
    exact ⟨_, rfl⟩
  have hadvance : (advance benefit grant).run m s s =
      (.ok ((), m.keepBenefit row), s, advanced benefit grant s) := by
    change (if grant.status.advances then _ else _ : Db Unit).run m s s = _
    rw [if_pos hclosed]
    change ((do
      let row ← require .invalidRequest ((advanced benefit grant s).benefits.get benefit.id)
      remember (Memory.keepBenefit row)
      pure row : Db SubscriptionBenefit) >>= fun _ => pure ()).run m s (advanced benefit grant s) = _
    rw [hrow]
    rfl
  refine ⟨(m.keepBenefit row).flushed, ?_⟩
  simp only [runCycle, run_bind, run_query, onward_ok, hfind, hadvance,
    run_commit_clean (m := m.keepBenefit row) hm, run_pure]

theorem interval_of_dueSlot {benefit : SubscriptionBenefit} {moment slot : ℕ}
    (h : dueSlot benefit moment = some slot) :
    ∃ every due, benefit.cadence.interval = some every ∧ benefit.nextGrantAt = some due ∧
      due ≤ slot := by
  unfold dueSlot resolveDueSlot at h
  split at h
  · cases h
  · cases h
  · rename_i due every hdue hevery
    refine ⟨every, due, hevery, hdue, ?_⟩
    split_ifs at h
    · simp only [Except.toOption, Option.bind_some, Option.some.injEq] at h
      omega
    · dsimp only at h
      split at h
      · simp only [Except.toOption, Option.bind_some, Option.some.injEq] at h
        omega
      · simp only [Except.toOption, Option.bind_some, Option.some.injEq] at h
        rw [← h]
        exact le_landing _ _ _
      · cases h

/-- A grant a slot's key names is scheduled in the second of the slot. -/
theorem Sound.slot_lt {s : Store} (hs : Sound s) {benefit : SubscriptionBenefit}
    (hb : benefit ∈ s.benefits) (hr : benefit.cadence.interval.isSome = true) {grant : BenefitGrant}
    (hg : grant ∈ s.grants) {slot : ℕ} (hk : grant.grantKey = (benefit.id, cycleKey slot)) :
    slot < grant.scheduledAt + Calendar.day := by
  have hkey := (hs.named grant hg).1
  rw [hk] at hkey
  obtain ⟨hid, hck⟩ := Prod.mk.inj hkey
  have hn := hs.benefit_named hg hb hid
  rw [Named, if_pos hr, ← hck] at hn
  rcases hn with hn | ⟨-, hn⟩
  · have hsecond : slot / Calendar.second = grant.scheduledAt / Calendar.second := by
      simpa [cycleKey] using hn
    have h1 := Nat.lt_div_mul_add (a := slot) (b := Calendar.second) (by decide)
    have h2 := Nat.div_mul_le_self grant.scheduledAt Calendar.second
    have h3 : Calendar.second ≤ Calendar.day := by decide
    rw [hsecond] at h1
    omega
  · cases hn

/-- Whatever run led there, a due pass that meets the grant of its slot closed leaves the
benefit due later than that slot if and only if the grant is of the cycle the benefit is
in. -/
theorem closed_grant_passed_iff {calls : List Call} {s : Store} (hs : Undelivered s)
    {trace : List (Turn Store)} {q : Sessions}
    (run : Pool.Run (fun _ _ _ => True) (sessions calls s) trace q)
    {benefit : SubscriptionBenefit} (hb : benefit ∈ q.store.benefits)
    (ha : benefit.status = .active) {moment slot : ℕ} (hdue : dueSlot benefit moment = some slot)
    {grant : BenefitGrant} (hg : grant ∈ q.store.grants)
    (hk : grant.grantKey = (benefit.id, cycleKey slot)) (hclosed : grant.status.advances = true)
    (hm : m.Clean) :
    (∃ next, nextGrant benefit.id
      ((runCycle benefit (cycleKey slot) slot).run m q.store q.store).2.1 = some next ∧ slot < next) ↔
      grant.cycle = benefit.cycle := by
  have hsound : Sound q.store :=
    run_preserves (fun _ _ _ _ c h => h.path c) run hs.sound
  obtain ⟨every, due, hevery, hnext, hle⟩ := interval_of_dueSlot hdue
  obtain ⟨m', hrun⟩ := run_runCycle_closed slot hm hb hg hk hclosed
  have hget : q.store.benefits.get benefit.id = some benefit := Table.get_of_mem hb
  rw [hrun, nextGrant, get_advanced, hget]
  by_cases hc : grant.cycle = benefit.cycle
  · have hlt := hsound.slot_lt hb (by rw [hevery]; rfl) hg hk
    have hadd := add_day_le_addInterval grant.scheduledAt every
    simp only [advances, hc, ha, hevery, iff_true, Option.map_some, Option.bind_some, beq_self_eq_true,
      Bool.and_self, if_true, Option.some.injEq, exists_eq_left']
    omega
  · have hne : (benefit.cycle == grant.cycle) = false := beq_false_of_ne (Ne.symm hc)
    simp only [advances, hc, hne, hnext, iff_false, Option.map_some, Option.bind_some, Bool.and_false,
      Bool.false_and, Bool.false_eq_true, if_false, Option.some.injEq, exists_eq_left']
    omega

/-- A slot whose node died while the subscription was paused is closed by the retry pass, and
passed once the subscription is back. -/
theorem dropped_slot_passed : ∃ (q : Sessions) (benefit : SubscriptionBenefit) (next : ℕ),
    benefit ∈ q.store.benefits ∧ dueSlot benefit Shop.opening = some Shop.opening ∧
    nextGrant benefit.id ((runCycle benefit (cycleKey Shop.opening) Shop.opening).run
      Memory.empty q.store q.store).2.1 = some next ∧ Shop.opening < next := by
  obtain ⟨trace, q, run, benefit, hb, ha, hdue, grant, hg, hk, hclosed, hc⟩ :=
    Pool.exists_run (fun _ _ _ => True)
      (sessions [.apply Shop.integration Shop.buyer [Shop.purchase] false none, .processDue,
        .apply Shop.integration Shop.buyer [Shop.paused] false none,
        .tick (31 * 60 * Calendar.second), .retryFailedGrants,
        .apply Shop.integration Shop.buyer [Shop.purchase] false none]
        (Shop.new (Shop.catalog [Shop.later])))
      (List.replicate 2 0 ++ [1] ++ List.replicate 2 2 ++ [3] ++ List.replicate 2 4 ++
        List.replicate 2 5)
      (fun q => ∃ b ∈ q.store.benefits, b.status = .active ∧
        dueSlot b Shop.opening = some Shop.opening ∧ ∃ g ∈ q.store.grants,
          g.grantKey = (b.id, cycleKey Shop.opening) ∧ g.status.advances = true ∧
          g.cycle = b.cycle) (by decide +kernel)
  obtain ⟨next, hnext⟩ := (closed_grant_passed_iff ⟨rfl, rfl, rfl⟩ run hb ha hdue hg hk hclosed
    (m := Memory.empty) (by simp [Memory.Clean, Memory.empty])).mpr hc
  exact ⟨q, benefit, next, hb, hdue, hnext⟩

/-- A purchase that pays by the due pass alone is handed over once its first slot was paid.
The friend's cycle starts at the slot the buyer was paid for, and never leaves it. -/
theorem closed_grant_held : ¬∀ (calls : List Call) (s : Store) (trace : List (Turn Store))
    (q : Sessions), Undelivered s → Pool.Run (fun _ _ _ => True) (sessions calls s) trace q →
    ∀ benefit ∈ q.store.benefits, benefit.status = .active → ∀ moment slot,
      dueSlot benefit moment = some slot → ∀ grant ∈ q.store.grants,
      grant.grantKey = (benefit.id, cycleKey slot) → grant.status.advances = true →
      ∃ next, nextGrant benefit.id ((runCycle benefit (cycleKey slot) slot).run Memory.empty
        q.store q.store).2.1 = some next ∧ slot < next := by
  intro h
  obtain ⟨trace, q, run, benefit, hb, ha, hdue, grant, hg, hk, hclosed, hstuck⟩ :=
    Pool.exists_run (fun _ _ _ => True)
      (sessions [.apply Shop.integration Shop.buyer [Shop.purchase] false none, .processDue,
        .apply Shop.integration Shop.friend [Shop.purchase] false none]
        (Shop.new (Shop.catalog [Shop.later])))
      (List.replicate 3 0 ++ List.replicate 4 1 ++ List.replicate 5 2)
      (fun q => ∃ b ∈ q.store.benefits, b.status = .active ∧
        dueSlot b Shop.opening = some Shop.opening ∧ ∃ g ∈ q.store.grants,
          g.grantKey = (b.id, cycleKey Shop.opening) ∧ g.status.advances = true ∧
          nextGrant b.id ((runCycle b (cycleKey Shop.opening) Shop.opening).run Memory.empty
            q.store q.store).2.1 = some Shop.opening) (by decide +kernel)
  obtain ⟨next, hnext, hlt⟩ := h _ _ trace q ⟨rfl, rfl, rfl⟩ run benefit hb ha _ _ hdue grant hg hk
    hclosed
  rw [hstuck] at hnext
  exact absurd (Option.some.inj hnext) (Nat.ne_of_lt hlt)

end FastKit
