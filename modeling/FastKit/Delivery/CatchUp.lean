import FastKit.Models.Walks
import FastKit.Services.Delivery

/-! # What a benefit behind on its slots owes

The slots a policy makes up for, as a list, and one turn of a due pass as one step along it.
-/

namespace FastKit

/-- The slots of a schedule from `slot` on that are not after the moment, `fuel` at most. -/
def slotsBy (every : Interval) (moment : ℕ) : ℕ → ℕ → List ℕ
  | 0, _ => []
  | fuel + 1, slot =>
    if slot ≤ moment then slot :: slotsBy every moment fuel (addInterval slot every) else []

/-- The slots a schedule that stands at `due` has missed. -/
def missed (every : Interval) (due moment : ℕ) : List ℕ :=
  slotsBy every moment ((moment - due) / Calendar.day + 1) due

variable {every : Interval} {due moment slot k : ℕ}

/-- With a step of fuel for each day left, no slot is left out. -/
theorem slotsBy_fuel {fuel fuel' : ℕ} (h : moment < slot + fuel * Calendar.day)
    (h' : moment < slot + fuel' * Calendar.day) :
    slotsBy every moment fuel slot = slotsBy every moment fuel' slot := by
  have hstep := add_day_le_addInterval slot every
  induction fuel generalizing fuel' slot with
  | zero =>
    cases fuel' with
    | zero => rfl
    | succ fuel' => rw [slotsBy, slotsBy, if_neg (by omega)]
  | succ fuel ih =>
    cases fuel' with
    | zero => rw [slotsBy, slotsBy, if_neg (by omega)]
    | succ fuel' =>
      rw [Nat.add_mul, Nat.one_mul] at h h'
      have hrest : slotsBy every moment fuel (addInterval slot every) =
          slotsBy every moment fuel' (addInterval slot every) :=
        ih (by omega) (by omega) (add_day_le_addInterval _ _)
      rw [slotsBy, slotsBy, hrest]

theorem fuel_enough (due moment : ℕ) :
    moment < due + ((moment - due) / Calendar.day + 1) * Calendar.day := by
  have h := Nat.lt_div_mul_add (a := moment - due) (b := Calendar.day) (by decide)
  rw [Nat.add_mul, Nat.one_mul]
  omega

theorem missed_later (h : moment < due) : missed every due moment = [] := by
  rw [missed, slotsBy, if_neg (Nat.not_le_of_lt h)]

theorem missed_cons (h : due ≤ moment) :
    missed every due moment = due :: missed every (addInterval due every) moment := by
  have hstep := add_day_le_addInterval due every
  have henough := fuel_enough due moment
  rw [Nat.add_mul, Nat.one_mul] at henough
  rw [missed, slotsBy, if_pos h, missed]
  exact congrArg (due :: ·) (slotsBy_fuel (by omega) (fuel_enough _ _))

/-- What a policy makes up for of the slots missed. -/
def owes (policy : MissedCyclePolicy) (every : Interval) (due moment : ℕ) : List ℕ :=
  if moment < due then []
  else
    match policy with
    | .catchUp => missed every due moment
    | .latestOnly => [landing every due moment]
    | .skip => if moment < addInterval due every then [due] else []

theorem owes_later {policy : MissedCyclePolicy} (h : moment < due) :
    owes policy every due moment = [] := if_pos h

theorem owes_catchUp : owes .catchUp every due moment = missed every due moment := by
  by_cases h : moment < due
  · rw [owes_later h, missed_later h]
  · exact if_neg h

theorem owes_latestOnly (h : due ≤ moment) :
    owes .latestOnly every due moment = [landing every due moment] := if_neg (Nat.not_lt_of_le h)

theorem owes_skip (h : due ≤ moment) : owes .skip every due moment =
    if moment < addInterval due every then [due] else [] := if_neg (Nat.not_lt_of_le h)

/-- A walk that starts at its landing stays there. -/
theorem landing_self (h : due ≤ moment) (h' : moment < addInterval due every) :
    landing every due moment = due :=
  (landing_eq_iff (k := 0) h).mpr ⟨h, by rwa [nthSlot_succ, nthSlot_zero]⟩

theorem landing_later (h : moment < due) : landing every due moment = due := by
  rw [landing, Nat.sub_eq_zero_of_le (Nat.le_of_lt h), Nat.zero_div, walk]

/-- Where one slot is due, it is what is owed, whatever the policy. -/
theorem owes_single (policy : MissedCyclePolicy) (h : due ≤ moment)
    (h' : moment < addInterval due every) : owes policy every due moment = [due] := by
  cases policy with
  | catchUp => rw [owes_catchUp, missed_cons h, missed_later h']
  | latestOnly => rw [owes_latestOnly h, landing_self h h']
  | skip => rw [owes_skip h, if_pos h']

/-- One turn of a due pass delivers the first slot owed and leaves the rest of them owed, or
moves past all that is missed. -/
theorem owes_step {b moved : SubscriptionBenefit} {answer : Option ℕ}
    (hevery : b.cadence.interval = some every) (hdue : b.nextGrantAt = some due) (h : due ≤ moment)
    (hr : resolveDueSlot b moment = .ok (answer, moved)) :
    (∃ slot, answer = some slot ∧ due ≤ slot ∧ owes b.missedCyclePolicy every due moment =
      slot :: owes b.missedCyclePolicy every (addInterval slot every) moment) ∨
    (answer = none ∧ owes b.missedCyclePolicy every due moment = [] ∧
      ∃ next, moment < next ∧ moved = { b with nextGrantAt := some next }) := by
  unfold resolveDueSlot at hr
  rw [hdue, hevery] at hr
  dsimp only at hr
  split_ifs at hr with hnext
  · obtain ⟨rfl, -⟩ := Prod.mk.inj (Except.ok.inj hr)
    exact .inl ⟨due, rfl, le_rfl, by rw [owes_single _ h hnext, owes_later hnext]⟩
  · cases hp : b.missedCyclePolicy with
    | catchUp =>
      rw [hp] at hr
      obtain ⟨rfl, -⟩ := Prod.mk.inj (Except.ok.inj hr)
      refine .inl ⟨due, rfl, le_rfl, ?_⟩
      rw [owes_catchUp, owes_catchUp, missed_cons h]
    | latestOnly =>
      rw [hp] at hr
      obtain ⟨rfl, -⟩ := Prod.mk.inj (Except.ok.inj hr)
      refine .inl ⟨_, rfl, le_landing _ _ _, ?_⟩
      rw [owes_later (lt_addInterval_landing every due moment), owes_latestOnly h]
    | skip =>
      rw [hp] at hr
      obtain ⟨rfl, rfl⟩ := Prod.mk.inj (Except.ok.inj hr)
      refine .inr ⟨rfl, ?_, _, lt_addInterval_landing every due moment, rfl⟩
      rw [owes_skip h, if_neg hnext]

end FastKit
