import FastKit.Reconciliation.Faces
import FastKit.Services.Sessions
import FastKit.Transaction.Commits

/-! # What a refunded purchase opens

A refund is looked at where a row of the account answers for the purchase. The other doors of
`settle` read its state and its dates alone, so what they open of a refunded purchase is what
they would open of any other.
-/

namespace FastKit
open Transaction Transaction.Program

/-- Whoever benefits by a face did so in the store. -/
def Kept (s : Store) (f : Face) : Prop := f.eligible = true → ∃ r ∈ s.subscriptions,
  r.id = f.id ∧ r.userId = f.userId ∧ r.isEligibleForBenefits = true

/-- Nothing was granted since `s`, and nobody benefits who did not. -/
structure Quiet (s t : Store) : Prop where
  grants : t.grants = s.grants
  kept : ∀ f ∈ faces t.subscriptions, Kept s f

/-- A session that granted nothing, with nothing in memory that would. -/
structure Tidy (s : Store) (m : Memory) (v : Store) : Prop where
  level : Level m v
  quiet : Quiet s v

theorem quiet_refl (s : Store) : Quiet s s := by
  refine ⟨rfl, ?_⟩
  rintro _ ⟨r, hr, rfl⟩ he
  exact ⟨r, hr, rfl, rfl, he⟩

variable {move : Face → Face} {g m : Memory} {b s v w : Store} {id : ℕ}

theorem quiet_moved (hgrants : w.grants = s.grants)
    (hfaces : faces w.subscriptions = move '' faces v.subscriptions)
    (hmove : ∀ f ∈ faces v.subscriptions, Kept s (move f)) : Quiet s w := by
  refine ⟨hgrants, fun f hf => ?_⟩
  rw [hfaces] at hf
  obtain ⟨f', hf', rfl⟩ := hf
  exact hmove f' hf'

theorem Tidy.same (h : Tidy s m v) (hfaces : faces w.subscriptions = faces v.subscriptions)
    (hgrants : w.grants = v.grants) : Tidy s m w :=
  ⟨h.level.faces hfaces, hgrants.trans h.quiet.grants, hfaces ▸ h.quiet.kept⟩

/-- What is in memory is committed, and grants nothing. -/
theorem commit_moves {post : Memory → Except Fault (Unit × Memory) → Store → Store → Prop}
    (hm : Moves move m v) (hgrants : v.grants = s.grants)
    (hmove : ∀ f : Face, (move f).owner = f.owner)
    (held : ∀ f ∈ faces v.subscriptions, move f = f ∨ ∃ l ∈ m.subscriptions, l.loaded.id = f.id)
    (hkept : ∀ f ∈ faces v.subscriptions, Kept s (move f))
    (hok : ∀ m' w, Tidy s m' w → faces w.subscriptions = move '' faces v.subscriptions →
      post g (.ok ((), m')) w w)
    (herr : post g (.error .integrity) b v) : commit.Meets (solo (Quiet s)) post g m b v := by
  rw [commit, meets_bind]
  refine flush_faces hm hmove held (fun u hu hlevel => ?_) herr
  have hquiet : Quiet s { v with subscriptions := u } := quiet_moved hgrants hu hkept
  exact solo_publish hquiet (hok _ _ ⟨hlevel, hquiet⟩ hu)

theorem commit_tidy {post : Memory → Except Fault (Unit × Memory) → Store → Store → Prop}
    (h : Tidy s m v)
    (hok : ∀ m' w, Tidy s m' w → faces w.subscriptions = faces v.subscriptions →
      post g (.ok ((), m')) w w)
    (herr : post g (.error .integrity) b v) : commit.Meets (solo (Quiet s)) post g m b v :=
  commit_moves h.level h.quiet.grants (fun _ => rfl) (fun _ _ => .inl rfl) h.quiet.kept
    (fun m' w ht hw => hok m' w ht (hw.trans (Set.image_id _))) herr

/-- What is logged commits what is in memory with it. -/
theorem record_moves {post : Memory → Except Fault (Unit × Memory) → Store → Store → Prop}
    {tenant : Option ℕ} {user : ℕ} {level : LogLevel} {message : LogMessage}
    (hm : Moves move m v) (hgrants : v.grants = s.grants)
    (hmove : ∀ f : Face, (move f).owner = f.owner)
    (held : ∀ f ∈ faces v.subscriptions, move f = f ∨ ∃ l ∈ m.subscriptions, l.loaded.id = f.id)
    (hkept : ∀ f ∈ faces v.subscriptions, Kept s (move f))
    (hok : ∀ m' w, Tidy s m' w → faces w.subscriptions = move '' faces v.subscriptions →
      post g (.ok ((), m')) w w)
    (herr : ∀ e b v, post g (.error e) b v) :
    (record tenant user level message).Meets (solo (Quiet s)) post g m b v := by
  simp only [record, persist, meets_bind, meets_execute, ending_ok, meets_attempt]
  refine flush_faces (v := { v with logs := v.logs ++ [_] }) hm hmove held (fun u hu hlevel => ?_)
    (herr _ _ _)
  have hquiet : Quiet s { v with
      subscriptions := u
      logs := v.logs ++ [⟨tenant, user, level, message⟩] } := quiet_moved hgrants hu hkept
  exact solo_publish hquiet (hok _ _ ⟨hlevel, hquiet⟩ hu)

theorem record_tidy {post : Memory → Except Fault (Unit × Memory) → Store → Store → Prop}
    {tenant : Option ℕ} {user : ℕ} {level : LogLevel} {message : LogMessage} (h : Tidy s m v)
    (hok : ∀ m' w, Tidy s m' w → faces w.subscriptions = faces v.subscriptions →
      post g (.ok ((), m')) w w)
    (herr : ∀ e b v, post g (.error e) b v) :
    (record tenant user level message).Meets (solo (Quiet s)) post g m b v :=
  record_moves h.level h.quiet.grants (fun _ => rfl) (fun _ _ => .inl rfl) h.quiet.kept
    (fun m' w ht hw => hok m' w ht (hw.trans (Set.image_id _))) herr

/-- How what grants nothing ends. -/
abbrev Tidily {α : Type} (s : Store) (P : α → Store → Prop) :
    Memory → Except Fault (α × Memory) → Store → Store → Prop :=
  ending (fun _ p _ v => Tidy s p.2 v ∧ P p.1 v) fun _ _ _ _ => True

def Shut (id : ℕ) (v : Store) : Prop :=
  ∀ f ∈ faces v.subscriptions, f.id = id → f.eligible = false

/-- An activation of a row that gives no benefits once it is written grants nothing. -/
theorem activate_moves (hm : Moves move m v) (hgrants : v.grants = s.grants)
    (hmove : ∀ f : Face, (move f).owner = f.owner)
    (held : ∀ f ∈ faces v.subscriptions, move f = f ∨ ∃ l ∈ m.subscriptions, l.loaded.id = f.id)
    (hkept : ∀ f ∈ faces v.subscriptions, Kept s (move f))
    (hshut : ∀ f ∈ faces v.subscriptions, (move f).id = id → (move f).eligible = false) :
    (activate id).Meets (solo (Quiet s)) (Tidily s fun _ _ => True) g m b v := by
  rw [activate, meets_bind]
  refine flush_faces hm hmove held (fun u hu hlevel => ?_) trivial
  rw [ending_ok, meets_bind]
  refine holdSubscription_level hlevel (fun row m' hm' hrow hid => ?_) fun _ => trivial
  have hno : row.isEligibleForBenefits = false := by
    obtain ⟨f, hmem, hf⟩ : row.face ∈ move '' faces v.subscriptions := hu ▸ mem_faces hrow
    rw [← Subscription.face_eligible, ← hf]
    exact hshut f hmem ((congrArg Face.id hf).trans hid)
  simp only [hno, Bool.not_false, if_true, expireEntitlements, writeEntitlements, writeBenefits,
    meets_bind, meets_execute, ending_ok]
  have ht : Tidy s m' { v with subscriptions := u } := ⟨hm', quiet_moved hgrants hu hkept⟩
  exact commit_tidy (ht.same rfl rfl) (fun m' w hw _ => ⟨hw, trivial⟩) trivial

/-- An activation of a row that gives no benefits grants nothing. -/
theorem activate_shut (h : Tidy s m v) (hshut : Shut id v) :
    (activate id).Meets (solo (Quiet s)) (Tidily s fun _ _ => True) g m b v :=
  activate_moves h.level h.quiet.grants (fun _ => rfl) (fun _ _ => .inl rfl) h.quiet.kept hshut

theorem kept_moveOne (h : Quiet s v)
    (hmove : ∀ f ∈ faces v.subscriptions, f.id = id → Kept s (move f)) :
    ∀ f ∈ faces v.subscriptions, Kept s (moveOne id move f) := by
  intro f hf
  by_cases hid : f.id = id
  · rw [moveOne_self hid]
    exact hmove f hf hid
  · rw [moveOne_other hid]
    exact h.kept f hf

theorem held_moveOne (h : ∃ l ∈ m.subscriptions, l.loaded.id = id) (f : Face) :
    moveOne id move f = f ∨ ∃ l ∈ m.subscriptions, l.loaded.id = f.id := by
  by_cases hid : f.id = id
  · exact .inr (hid ▸ h)
  · exact .inl (moveOne_other hid)

theorem owner_moveOne (hmove : ∀ f : Face, (move f).owner = f.owner) (f : Face) :
    (moveOne id move f).owner = f.owner := by
  by_cases hid : f.id = id
  · rw [moveOne_self hid, hmove]
  · rw [moveOne_other hid]

theorem kept_of_ineligible {f : Face} (h : f.eligible = false) : Kept s f := fun he => by
  rw [h] at he
  cases he

/-- A row that is closed gives no benefits, and nothing is granted. -/
theorem close_tidy (h : Tidy s m v) {status : SubscriptionStatus} (hstatus : status.eligible = false)
    (reason : String) : (close id status reason).Meets (solo (Quiet s))
      (Tidily s fun _ => Shut id) g m b v := by
  rw [close, meets_bind]
  refine subscriptionOf_level h.level (fun row m' hm' _ hrow hid => ?_) fun _ => trivial
  refine meets_ite.mpr ⟨fun hsame => ⟨⟨hm', h.quiet⟩, fun f hf hfid => ?_⟩, fun _ => ?_⟩
  · rw [eq_of_face hf hrow (hfid.trans hid.symm), Subscription.face_eligible,
      Subscription.isEligibleForBenefits]
    rw [show row.status = status from hsame, hstatus, Bool.false_and]
  let shut := fun f : Face => { f with status := status, benefitStatus := .ended }
  have hshut : ∀ f, (shut f).eligible = false := fun f => by simp [shut, Face.eligible, hstatus]
  simp only [now, meets_bind, meets_query, ending_ok]
  refine assign_level shut hm' (fun _ => rfl) (fun m' hm' hcopy => ?_) fun _ => trivial
  simp only [endBenefits, expireEntitlements, writeBenefits, writeEntitlements, meets_bind,
    meets_execute, ending_ok]
  refine record_moves (hm'.faces rfl) h.quiet.grants (owner_moveOne fun _ => rfl)
    (fun f _ => held_moveOne hcopy f) (kept_moveOne (v := v) h.quiet fun f _ _ =>
      kept_of_ineligible (hshut f))
    (fun m' w hw hfaces => ⟨hw, fun f hf hfid => ?_⟩) fun _ _ _ => trivial
  rw [hfaces] at hf
  obtain ⟨f', -, rfl⟩ := hf
  by_cases hf' : f'.id = id
  · rw [moveOne_self hf']
    exact hshut f'
  · rw [moveOne_other hf'] at hfid
    exact absurd hfid hf'

theorem hold_tidy (h : Tidy s m v) (statedAt : Option ℕ) :
    (hold id statedAt).Meets (solo (Quiet s)) (Tidily s fun _ _ => True) g m b v := by
  simp only [hold, meets_bind, meets_query, ending_ok]
  refine meets_ite.mpr ⟨fun _ => ?_, fun _ => ⟨h, trivial⟩⟩
  simp only [meets_bind, meets_execute, ending_ok]
  let stamp := fun r : Subscription => { r with statedAt := statedAt <|> r.statedAt }
  have hstill : Still stamp := fun _ => ⟨rfl, rfl⟩
  have hstamped : Tidy s m
      { v with subscriptions := v.subscriptions.modify (·.id == id) stamp hstill } :=
    h.same (faces_modify hstill fun _ => rfl) rfl
  exact refresh_level hstamped.level (fun row m' hm' _ _ => ⟨⟨hm', hstamped.quiet⟩, trivial⟩)
    fun _ => trivial

theorem releaseCycle_tidy (h : Tidy s m v) : (releaseCycle id).Meets (solo (Quiet s))
    (Tidily s fun _ w => faces w.subscriptions = faces v.subscriptions) g m b v := by
  simp only [releaseCycle, writeBenefits, meets_bind, meets_query, meets_execute, ending_ok]
  exact commit_tidy (h.same rfl rfl) (fun m' w hw hfaces => ⟨hw, hfaces⟩) trivial

/-- The row of a purchase follows what was bought, and grants nothing for it. -/
theorem repoint_tidy (h : Tidy s m v) (integration : Integration) (purchase : ProviderPurchase) :
    (repoint integration id purchase).Meets (solo (Quiet s)) (Tidily s fun _ _ => True) g m b v := by
  rw [repoint, meets_bind]
  refine subscriptionOf_level h.level (fun row m' hm' _ _ _ => ?_) fun _ => trivial
  have h' : Tidy s m' v := ⟨hm', h.quiet⟩
  simp only [meets_bind, meets_query, ending_ok]
  cases mappedProduct integration.id purchase.productReference v with
  | none => exact ⟨h', trivial⟩
  | some product =>
    refine meets_ite.mpr ⟨fun _ => ⟨h', trivial⟩, fun _ => ?_⟩
    rw [meets_bind]
    refine moveRow_level (fun f => f) hm' (fun _ => rfl) (fun _ => rfl)
      (fun u m' hu hm' => ?_) (fun _ m' _ _ _ hm' => ⟨⟨hm', h.quiet⟩, trivial⟩) fun _ => trivial
    have hu' : faces u = faces v.subscriptions := by
      have hsame : moveOne id (fun f => f) = fun f => f := funext fun f => by
        unfold moveOne
        split_ifs <;> rfl
      rw [hu, hsame, Set.image_id']
    have hmoved : Tidy s m' { v with subscriptions := u } :=
      ⟨hm', (h.same (w := { v with subscriptions := u }) hu' rfl).quiet⟩
    simp only [Bool.not_true, Bool.false_eq_true, if_false, meets_bind, meets_query, ending_ok]
    cases v.catalog.plans.find? (·.id == product.planId) with
    | none => trivial
    | some plan =>
      refine meets_ite.mpr ⟨fun _ => ?_, fun _ => ⟨hmoved, trivial⟩⟩
      refine (releaseCycle_tidy hmoved).bind (fun g _ m b w hw => ⟨hw.1, trivial⟩)
        fun _ _ _ _ _ => trivial

/-- The row of the account that answers for a refunded purchase is closed, and nothing is
granted for it. -/
theorem settleRow_tidy (h : Tidy s m v) (integration : Integration) {purchase : ProviderPurchase}
    (statedAt : Option ℕ) (hrefund : purchase.refundedAt.isSome = true) :
    (settleRow integration id purchase statedAt).Meets (solo (Quiet s)) (Tidily s fun _ _ => True)
      g m b v := by
  refine (hold_tidy h statedAt).bind ?_ fun _ _ _ _ _ => trivial
  rintro g taken m b v ⟨h, -⟩
  refine meets_ite.mpr ⟨fun _ => ⟨h, trivial⟩, fun _ => ?_⟩
  rw [meets_bind]
  refine subscriptionOf_level h.level (fun row m' hm' _ _ _ => ?_) fun _ => trivial
  have h' : Tidy s m' v := ⟨hm', h.quiet⟩
  refine meets_ite.mpr ⟨fun _ => ⟨h', trivial⟩, fun _ => ?_⟩
  refine (repoint_tidy h' integration purchase).bind ?_ fun _ _ _ _ _ => trivial
  rintro g moved m b v ⟨h, -⟩
  have hrest : ∀ {g m b v}, Tidy s m v → (do
      let changes ← align id purchase statedAt
      if !moved then pure changes
      else
        let _ ← activate id
        pure 1 : Db ℕ).Meets (solo (Quiet s)) (Tidily s fun _ _ => True) g m b v := by
    intro g m b v h
    rw [meets_bind]
    simp only [align, now, meets_bind, meets_query, ending_ok, hrefund, if_true]
    refine (close_tidy h rfl _).mono ?_
    rintro g (e | ⟨changes, m⟩) b v hclosed
    · trivial
    refine meets_ite.mpr ⟨fun _ => ⟨hclosed.1, trivial⟩, fun _ => ?_⟩
    exact (activate_shut hclosed.1 hclosed.2).bind (fun _ _ _ _ _ hk => hk) fun _ _ _ _ _ => trivial
  refine meets_ite.mpr ⟨fun _ => ?_, fun _ => hrest h⟩
  refine (hold_tidy h statedAt).bind ?_ fun _ _ _ _ _ => trivial
  rintro g taken m b v ⟨h, -⟩
  exact meets_ite.mpr ⟨fun _ => ⟨h, trivial⟩, fun _ => hrest h⟩

/-- Whether a row a purchase is carried to gives benefits. -/
def grantsBenefits (purchase : ProviderPurchase) : Bool :=
  (statusOf purchase).eligible && purchase.autoResumeAt.isNone

def carriedFace (purchase : ProviderPurchase) (f : Face) : Face :=
  { f with
    status := statusOf purchase
    benefitStatus := if purchase.autoResumeAt.isSome then .paused else .active }

theorem carriedFace_eligible (purchase : ProviderPurchase) (f : Face) :
    (carriedFace purchase f).eligible = grantsBenefits purchase := by
  cases h : purchase.autoResumeAt <;> simp [carriedFace, Face.eligible, grantsBenefits, h]

/-- What is carried to one row, which shuts where the purchase gives no benefits. -/
theorem shut_carried {purchase : ProviderPurchase} (hno : grantsBenefits purchase = false)
    (hw : faces w.subscriptions = moveOne id (carriedFace purchase) '' faces v.subscriptions) :
    Shut id w := by
  intro f hf hid
  rw [hw] at hf
  obtain ⟨f', -, rfl⟩ := hf
  by_cases hf' : f'.id = id
  · rw [moveOne_self hf', carriedFace_eligible, hno]
  · rw [moveOne_other hf'] at hid
    exact absurd hid hf'

/-- A receipt that passes on by a purchase that gives no benefits grants nothing. -/
theorem handOver_tidy (h : Tidy s m v) (user : User) {purchase : ProviderPurchase}
    (hno : grantsBenefits purchase = false) : (handOver id user purchase).Meets (solo (Quiet s))
      (Tidily s fun _ _ => True) g m b v := by
  rw [handOver, meets_bind]
  refine subscriptionOf_level h.level (fun row m' hm' _ _ _ => ?_) fun _ => trivial
  rw [ending_ok, meets_bind]
  refine moveRow_level (fun f => { f with userId := user.id }) hm' (fun _ => rfl) (fun _ => rfl)
    (fun u m' hu hm' => ?_) (fun _ m' _ _ _ hm' => ⟨⟨hm', h.quiet⟩, trivial⟩) fun _ => trivial
  simp only [Bool.not_true, Bool.false_eq_true, if_false, endBenefits, expireEntitlements,
    writeBenefits, writeEntitlements, carry, now, meets_bind, meets_execute, meets_query, ending_ok]
  refine assign_level (carriedFace purchase) (hm'.faces rfl) (fun _ => rfl)
    (fun m' hm' hcopy => ?_) fun _ => trivial
  rw [ending_ok, meets_bind]
  refine commit_moves hm' h.quiet.grants (owner_moveOne fun _ => rfl)
    (fun f _ => held_moveOne hcopy f) (fun f hf => ?_) (fun m' w ht hw => ?_) trivial
  · by_cases hid : f.id = id
    · rw [moveOne_self hid]
      exact kept_of_ineligible ((carriedFace_eligible purchase f).trans hno)
    · obtain ⟨f', hf', rfl⟩ : f ∈ moveOne id _ '' faces v.subscriptions := hu ▸ hf
      have hother : f'.id ≠ id := fun hf' => hid (by rw [moveOne_self hf']; exact hf')
      rw [moveOne_other hid, moveOne_other hother]
      exact h.quiet.kept f' hf'
  · rw [ending_ok, meets_bind]
    refine record_tidy ht (fun m' w' ht' hw' => ?_) fun _ _ _ => trivial
    refine (releaseCycle_tidy ht').bind ?_ fun _ _ _ _ _ => trivial
    rintro g _ m b v ⟨ht, hv⟩
    exact (activate_shut ht (shut_carried hno (hv.trans (hw'.trans hw)))).bind
      (fun _ _ _ _ _ hk => ⟨hk.1, trivial⟩) fun _ _ _ _ _ => trivial

/-- Whether settling a refunded purchase looks at the refund, or opens nothing for it anyway: a
row of the account answers for it, it is over, it gives no benefits, or nothing could be opened. -/
def refundHeard (integration : Integration) (user : User) (purchase : ProviderPurchase)
    (ours : Ours) (s : Store) : Bool :=
  ours.any (·.1 == purchase.productReference) ||
    (samePurchase integration.id user.id purchase s).isSome || isOver purchase s.clock ||
    !grantsBenefits purchase || purchase.externalId.isNone ||
    (mappedProduct integration.id purchase.productReference s).isNone

/-- The row of a transaction is the account's where it has one of it. -/
theorem samePurchase_isSome {integration : Integration} {user : User} {purchase : ProviderPurchase} :
    (samePurchase integration.id user.id purchase s).isSome = true ↔ ∃ r ∈ s.subscriptions,
      holds integration.id purchase.externalId r = true ∧ r.userId = user.id := by
  unfold samePurchase holds
  cases purchase.externalId with
  | none => simp
  | some transaction =>
    simp only [Option.bind_some, Option.isSome_map, Table.isSome_find, Option.isSome_some,
      Bool.and_true, Bool.and_eq_true, beq_iff_eq]
    exact exists_congr fun r => and_congr_right fun _ => and_right_comm

/-- A row of the transaction is found by its face alone. -/
theorem find_holds_faces {integrationId : ℕ} {externalId : Option ℕ} {row : Subscription}
    {t u : Table Subscription} (hu : faces u = faces t)
    (hrow : u.find (holds integrationId externalId) = some row) :
    t.find (holds integrationId externalId) ≠ none := by
  intro hnone
  obtain ⟨r, hr, hface⟩ : row.face ∈ faces t := hu ▸ mem_faces (Table.mem_of_find hrow)
  have hsame : holds integrationId externalId r = holds integrationId externalId row := by
    simp only [Subscription.face, Face.mk.injEq] at hface
    simp only [holds, hface.2.2.1, hface.2.2.2.1]
  have hno := Table.find_none hnone hr
  rw [hsame, Table.find_holds hrow] at hno
  cases hno

/-- Where no row of the account carries the purchase, the row found of it is another's. -/
theorem settled_other {integration : Integration} {user : User} {purchase : ProviderPurchase}
    {row settled : Subscription}
    (hsame : samePurchase integration.id user.id purchase v = none)
    (hrow : v.subscriptions.find (holds integration.id purchase.externalId) = some row)
    (hmem : settled.face ∈ faces v.subscriptions) (hid : settled.id = row.id) :
    row.userId = settled.userId ∧ settled.userId ≠ user.id := by
  have hface : row.userId = settled.userId :=
    congrArg Face.userId (eq_of_face (mem_faces (Table.mem_of_find hrow)) hmem hid.symm)
  refine ⟨hface, fun hown => ?_⟩
  have hsome := samePurchase_isSome.mpr
    ⟨row, Table.mem_of_find hrow, Table.find_holds hrow, hface.trans hown⟩
  rw [hsame] at hsome
  cases hsome

/-- What is opened of a purchase that gives no benefits grants nothing. -/
theorem openPurchase_tidy (h : Tidy s m v) (again : Db ℕ) (integration : Integration) (user : User)
    {purchase : ProviderPurchase} (statedAt : Option ℕ)
    (hsame : samePurchase integration.id user.id purchase v = none)
    (hheard : refundHeard integration user purchase [] v = true) :
    (openPurchase again integration user purchase statedAt).Meets (solo (Quiet s))
      (Tidily s fun _ _ => True) g m b v := by
  simp only [openPurchase, now, meets_bind, meets_query, ending_ok]
  refine meets_ite.mpr ⟨fun _ => ⟨h, trivial⟩, fun hover => ?_⟩
  have hnothing : (do
      record integration.tenantId user.id .warning
        (.nothingMaps purchase.productReference user.id)
      pure 0 : Db ℕ).Meets (solo (Quiet s)) (Tidily s fun _ _ => True) g m b v := by
    rw [meets_bind]
    refine record_tidy h (fun _ _ ht _ => ?_) fun _ _ _ => trivial
    exact ⟨ht, trivial⟩
  rw [meets_bind, meets_query, ending_ok]
  cases hproduct : mappedProduct integration.id purchase.productReference v with
  | none => exact hnothing
  | some product =>
    cases hid : purchase.externalId with
    | none => exact hnothing
    | some transaction =>
      have hno : grantsBenefits purchase = false := by
        simpa [refundHeard, hsame, hover, hid, hproduct] using hheard
      rw [meets_bind]
      refine insertOrRead_level h.level (fun row hrow => ?_) (fun _ u hu hlevel row t ht => ?_)
        (fun hnone u hu hlevel => ?_) trivial
      · rw [ending_ok, meets_bind, meets_require_some, ending_ok]
        simp only [Bool.false_eq_true, if_false, meets_bind]
        refine subscriptionOf_level h.level (fun settled m' hm' _ hmem hsid => ?_) fun _ => trivial
        have hother := settled_other hsame (hid ▸ hrow) hmem hsid
        rw [ending_ok, if_neg hother.2]
        exact handOver_tidy ⟨hm', h.quiet⟩ user hno
      · rw [ending_ok, meets_bind, meets_require_some, ending_ok]
        simp only [if_true, carry, now, meets_bind, meets_remember, meets_query, ending_ok]
        have ht' : faces t = insert row.face (faces v.subscriptions) := hu ▸ faces_insert ht
        have hgrown : Level m.flushed { v with subscriptions := t } :=
          hlevel.grow (faces_insert ht ▸ Set.subset_insert _ _)
        have hload : Level (Memory.load row m.flushed) { v with subscriptions := t } :=
          Level.load hgrown ((Table.mem_insert ht).mpr (.inr rfl))
        refine assign_level (carriedFace purchase) hload (fun _ => rfl) (fun m' hm' hcopy => ?_)
          fun _ => trivial
        rw [ending_ok, meets_bind]
        refine (activate_moves hm' h.quiet.grants (owner_moveOne fun _ => rfl)
          (fun f _ => held_moveOne hcopy f) (fun f hf => ?_) (fun f _ hf => ?_)).mono ?_
        · by_cases hfid : f.id = row.id
          · rw [moveOne_self hfid]
            exact kept_of_ineligible ((carriedFace_eligible purchase f).trans hno)
          · rw [moveOne_other hfid]
            rcases ht' ▸ hf with rfl | hf
            · exact absurd rfl hfid
            · exact h.quiet.kept f hf
        · by_cases hfid : f.id = row.id
          · rw [moveOne_self hfid, carriedFace_eligible, hno]
          · rw [moveOne_other hfid] at hf
            exact absurd hf hfid
        · rintro g (e | ⟨grants, m⟩) b v ht
          · trivial
          · exact ⟨ht.1, trivial⟩
      · rw [ending_ok]
        cases hrow : Table.find u (holds integration.id (some transaction)) with
        | none => trivial
        | some row => exact absurd hnone (find_holds_faces hu hrow)

theorem any_of_find {ours : Ours} {reference : ℕ} :
    ours.any (·.1 == reference) = (ours.find? (·.1 == reference)).isSome := by
  rw [List.isSome_find?]

/-- A refunded purchase that is heard is settled with nothing granted. -/
theorem settle_tidy (h : Tidy s m v) (integration : Integration) (user : User)
    (statedAt : Option ℕ) (n : ℕ) {purchase : ProviderPurchase} {ours : Ours}
    (hrefund : purchase.refundedAt.isSome = true)
    (hheard : refundHeard integration user purchase ours v = true) :
    (settle integration user statedAt n purchase ours).Meets (solo (Quiet s))
      (Tidily s fun _ _ => True) g m b v := by
  cases n with
  | zero => trivial
  | succ again =>
    rw [settle]
    cases hfind : ours.find? (·.1 == purchase.productReference) with
    | some entry =>
      exact (settleRow_tidy h integration statedAt hrefund).bind
        (fun _ _ _ _ _ hk => ⟨hk.1, trivial⟩) fun _ _ _ _ _ => trivial
    | none =>
      dsimp only
      rw [meets_bind, meets_query, ending_ok]
      cases hsame : samePurchase integration.id user.id purchase v with
      | some id =>
        dsimp only
        rw [meets_bind]
        refine subscriptionOf_level h.level (fun _ m' hm' _ _ _ => ?_) fun _ => trivial
        have h' : Tidy s m' v := ⟨hm', h.quiet⟩
        exact (settleRow_tidy h' integration statedAt hrefund).bind
          (fun _ _ _ _ _ hk => ⟨hk.1, trivial⟩) fun _ _ _ _ _ => trivial
      | none =>
        have hopen : refundHeard integration user purchase [] v = true := by
          simpa [refundHeard, any_of_find, hfind] using hheard
        exact (openPurchase_tidy h _ integration user statedAt hsame hopen).bind
          (fun _ _ _ _ _ hk => ⟨hk.1, trivial⟩) fun _ _ _ _ _ => trivial

/-- Settles one purchase and commits, as a handler does whose provider answers with it. -/
def takes (integration : Integration) (user : User) (statedAt : Option ℕ) (n : ℕ)
    (purchase : ProviderPurchase) (ours : Ours) : Db ℕ := do
  let (changes, _) ← settle integration user statedAt n purchase ours
  commit
  pure changes

/-- Whether a row carries the transaction of a purchase, or answers for its product in the
account. -/
def answersFor (integration : Integration) (user : User) (purchase : ProviderPurchase) (s : Store)
    (r : Subscription) : Bool :=
  holds integration.id purchase.externalId r ||
    (r.integrationId == some integration.id && r.userId == user.id &&
      r.externalProductId.any (fun id => s.catalog.externalProducts.any
        (fun p => p.id == id && p.externalId == purchase.productReference)))

/-- What a call that takes a refund leaves of a store: no grant is delivered, and no row of the
purchase benefits its account that did not. -/
def GrantsNothing (integration : Integration) (user : User) (purchase : ProviderPurchase)
    (s t : Store) : Prop :=
  t.grants = s.grants ∧ ∀ r ∈ t.subscriptions, answersFor integration user purchase t r = true →
    r.isEligibleForBenefits = true → ∃ r' ∈ s.subscriptions,
      r'.id = r.id ∧ r'.userId = r.userId ∧ r'.isEligibleForBenefits = true

theorem Quiet.grantsNothing (h : Quiet s v) (integration : Integration) (user : User)
    (purchase : ProviderPurchase) : GrantsNothing integration user purchase s v :=
  ⟨h.grants, fun _ hr _ he => h.kept _ (mem_faces hr) he⟩

/-- A refunded purchase that is heard is taken with nothing granted. -/
theorem takes_tidy (h : Tidy s m v) (integration : Integration) (user : User)
    (statedAt : Option ℕ) (n : ℕ) {purchase : ProviderPurchase} {ours : Ours}
    (hrefund : purchase.refundedAt.isSome = true)
    (hheard : refundHeard integration user purchase ours v = true) :
    (takes integration user statedAt n purchase ours).Meets (solo (Quiet s))
      (Tidily s fun _ _ => True) g m b v := by
  refine (settle_tidy h integration user statedAt n hrefund hheard).bind ?_ fun _ _ _ _ _ => trivial
  rintro g ⟨changes, ours⟩ m b v ⟨h, -⟩
  rw [meets_bind]
  exact commit_tidy h (fun _ _ ht _ => ⟨ht, trivial⟩) trivial

/-- How what moves no face ends. -/
abbrev Steady {α : Type} (v : Store) : Memory → Except Fault (α × Memory) → Store → Store → Prop :=
  ending (fun _ p _ w => Level p.2 w ∧ faces w.subscriptions = faces v.subscriptions)
    fun _ _ _ _ => True

variable {C : Contract Memory Memory Store}

theorem Steady.trans {α : Type} {c : Db α} (h : c.Meets C (Steady w) g m b w)
    (hw : faces w.subscriptions = faces v.subscriptions) : c.Meets C (Steady v) g m b w := by
  refine h.mono ?_
  rintro g (e | ⟨a, m⟩) b u hk
  · trivial
  · exact ⟨hk.1, hk.2.trans hw⟩

theorem promiseEntitlements_steady (hm : Level m v) (subscription : Subscription) (moment : ℕ)
    (promises : List PlanEntitlement) : (promiseEntitlements subscription moment promises).Meets C
      (Steady v) g m b v := by
  induction promises generalizing g m b v with
  | nil => exact ⟨hm, rfl⟩
  | cons promise rest ih =>
    rw [promiseEntitlements, meets_bind]
    have hnext : ∀ (row : UserEntitlement) {g : Memory} {m : Memory} {b w : Store},
        Level m w → faces w.subscriptions = faces v.subscriptions → (do
          let promised ← promiseEntitlements subscription moment rest
          pure (row :: promised) : Db (List UserEntitlement)).Meets C (Steady v) g m b w :=
      fun row _ _ _ _ hm hw => (Steady.trans (ih hm) hw).bind (fun _ _ _ _ _ hk => hk)
        fun _ _ _ _ _ => trivial
    have hrest : ∀ (o : Option (UserEntitlement × Bool)) {g : Memory} {m : Memory} {b w : Store},
        Level m w → faces w.subscriptions = faces v.subscriptions → (do
          let found ← require .attributeError o
          writeEntitlements (·.id == found.1.id)
            (fun e => { e with
              status := .active, revokedAt := none, expiresAt := subscription.accessUntil })
            (fun _ => ⟨rfl, rfl⟩)
          let promised ← promiseEntitlements subscription moment rest
          pure (found.1 :: promised) : Db (List UserEntitlement)).Meets C (Steady v) g m b w := by
      rintro (_ | ⟨row, inserted⟩) g m b w hm hw
      · trivial
      · rw [meets_bind, meets_require_some, ending_ok]
        exact meets_bind.mpr (meets_writeEntitlements.mpr (hnext row (hm.faces rfl) hw))
    exact insertOrRead_level hm (fun row _ => hrest (some (row, false)) hm rfl)
      (fun _ u hu hlevel row t _ => hrest (some (row, true)) (hlevel.faces rfl) hu)
      (fun _ u hu hlevel => hrest _ hlevel hu) trivial

theorem reconcileEntitlements_steady (hm : Level m v) (subscription : Subscription) :
    (reconcileEntitlements subscription).Meets C (Steady v) g m b v := by
  simp only [reconcileEntitlements, now, meets_bind, meets_query, ending_ok]
  refine (promiseEntitlements_steady hm subscription _ _).mono ?_
  rintro g (e | ⟨promised, m⟩) b w hk
  · trivial
  · exact ⟨hk.1.faces rfl, hk.2⟩

theorem promiseBenefits_steady (hm : Level m v) (id anchor moment : ℕ)
    (entitlements : List UserEntitlement) (benefits : List Benefit) :
    (promiseBenefits id anchor moment entitlements benefits).Meets C (Steady v) g m b v := by
  induction benefits generalizing g m b v with
  | nil => exact ⟨hm, rfl⟩
  | cons benefit rest ih =>
    have hnext : ∀ (row : SubscriptionBenefit) {g : Memory} {m : Memory} {b w : Store},
        Level m w → faces w.subscriptions = faces v.subscriptions → (do
          let promised ← promiseBenefits id anchor moment entitlements rest
          pure (row.id :: promised) : Db (List ℕ)).Meets C (Steady v) g m b w :=
      fun row _ _ _ _ hm hw => (Steady.trans (ih hm) hw).bind (fun _ _ _ _ _ hk => hk)
        fun _ _ _ _ _ => trivial
    rw [promiseBenefits, meets_bind, meets_query, ending_ok]
    split
    · exact meets_bind.mpr (meets_writeBenefits.mpr (hnext _ (hm.faces rfl) rfl))
    · rw [meets_bind]
      cases entitlements.find? (·.entitlementId == benefit.entitlementId) with
      | none => trivial
      | some entitlement =>
        rw [meets_require_some, ending_ok, meets_bind]
        have hwritten : ∀ (o : Option (SubscriptionBenefit × Bool)) {g : Memory} {m : Memory}
            {b w : Store}, Level m w → faces w.subscriptions = faces v.subscriptions → (do
              let found ← require .attributeError o
              let promised ← promiseBenefits id anchor moment entitlements rest
              pure (found.1.id :: promised) : Db (List ℕ)).Meets C (Steady v) g m b w := by
          rintro (_ | ⟨row, inserted⟩) g m b w hm hw
          · trivial
          · exact hnext row hm hw
        exact insertOrRead_level hm (fun row _ => hwritten (some (row, false)) hm rfl)
          (fun _ u hu hlevel row t _ => hwritten (some (row, true)) (hlevel.faces rfl) hu)
          (fun _ u hu hlevel => hwritten _ hlevel hu) trivial

theorem snapshotBenefits_steady (hm : Level m v) (subscription : Subscription)
    (entitlements : List UserEntitlement) :
    (snapshotBenefits subscription entitlements).Meets C (Steady v) g m b v := by
  simp only [snapshotBenefits, now, meets_bind, meets_query, ending_ok]
  refine (promiseBenefits_steady hm _ _ _ _ _).mono ?_
  rintro g (e | ⟨promised, m⟩) b w hk
  · trivial
  · exact ⟨hk.1.faces rfl, hk.2⟩

/-- How what ends only after it published ends before. -/
abbrev Unended {α : Type} : Memory → Except Fault α → Store → Store → Prop :=
  ending (fun _ _ _ _ => False) fun _ _ _ _ => True

/-- An activation of a row that benefits once it is written commits what is written of it. -/
theorem activate_first {P : Store → Prop} (hm : Moves move m v)
    (hmove : ∀ f : Face, (move f).owner = f.owner)
    (held : ∀ f ∈ faces v.subscriptions, move f = f ∨ ∃ l ∈ m.subscriptions, l.loaded.id = f.id)
    (hgives : ∀ f ∈ faces v.subscriptions, (move f).id = id → (move f).eligible = true)
    (hP : ∀ w : Store, faces w.subscriptions = move '' faces v.subscriptions → P w) :
    (activate id).Meets (first P) Unended g m b v := by
  rw [activate, meets_bind]
  refine flush_faces hm hmove held (fun u hu hlevel => ?_) trivial
  rw [ending_ok, meets_bind]
  refine holdSubscription_level hlevel (fun row m' hm' hrow hid => ?_) fun _ => trivial
  have hyes : row.isEligibleForBenefits = true := by
    obtain ⟨f, hmem, hf⟩ : row.face ∈ move '' faces v.subscriptions := hu ▸ mem_faces hrow
    rw [← Subscription.face_eligible, ← hf]
    exact hgives f hmem ((congrArg Face.id hf).trans hid)
  rw [ending_ok, if_neg (by simp [hyes])]
  refine (reconcileEntitlements_steady hm' row).bind ?_ fun _ _ _ _ _ => trivial
  rintro g entitlements m b w ⟨hm, hw⟩
  refine (snapshotBenefits_steady hm row entitlements).bind ?_ fun _ _ _ _ _ => trivial
  rintro g benefits m b w' ⟨hm, hw'⟩
  simp only [commit, meets_bind, meets_query, meets_remember, ending_ok]
  refine flush_level (fun l hl => hm l hl) (fun u' hu' _ => ?_) trivial
  exact first_publish (hP _ (hu'.trans (hw'.trans (hw.trans hu))))

/-- A row that benefits, of which the account had nothing before. -/
theorem grants_of_face {integration : Integration} {user : User} {purchase : ProviderPurchase}
    {f : Face} (hf : f ∈ faces w.subscriptions) (hintegration : f.integrationId = some integration.id)
    (hexternal : f.externalId = purchase.externalId) (hsome : purchase.externalId.isSome = true)
    (heligible : f.eligible = true) (hnew : ∀ r ∈ s.subscriptions, r.id = f.id → r.userId ≠ f.userId) :
    ¬GrantsNothing integration user purchase s w := by
  rintro ⟨-, hkept⟩
  obtain ⟨row, hrow, rfl⟩ := hf
  have hholds : holds integration.id purchase.externalId row = true := by
    simp only [Subscription.face] at hintegration hexternal
    simp [holds, hintegration, hexternal, hsome]
  obtain ⟨r, hr, hid, huser, -⟩ := hkept row hrow (by simp [answersFor, hholds]) heligible
  exact hnew r hr hid huser

/-- A receipt that passes on by a purchase that gives benefits commits them first. -/
theorem handOver_first {P : Store → Prop} {row : Subscription} (hm : Level m v)
    (hrow : row ∈ v.subscriptions) (user : User) {purchase : ProviderPurchase}
    (hP : ∀ w : Store, carriedFace purchase { row.face with userId := user.id } ∈
      faces w.subscriptions → P w) :
    (handOver row.id user purchase).Meets (first P) Unended g m b v := by
  rw [handOver, meets_bind]
  refine subscriptionOf_level hm (fun settled m' hm' _ hmem hid => ?_) fun _ => trivial
  have hface : settled.face = row.face := eq_of_face hmem (mem_faces hrow) hid
  rw [ending_ok, meets_bind]
  refine moveRow_level (fun f => { f with userId := user.id }) hm' (fun _ => rfl) (fun _ => rfl)
    (fun u m' hu hm' => ?_) (fun r m' hr hrid hstill _ => ?_) fun _ => trivial
  · simp only [Bool.not_true, Bool.false_eq_true, if_false, endBenefits, expireEntitlements,
      writeBenefits, writeEntitlements, carry, now, meets_bind, meets_execute, meets_query,
      ending_ok]
    refine assign_level (carriedFace purchase) (hm'.faces rfl) (fun _ => rfl)
      (fun m' hm' hcopy => ?_) fun _ => trivial
    rw [ending_ok, meets_bind, commit, meets_bind]
    refine flush_faces hm' (owner_moveOne fun _ => rfl) (fun f _ => held_moveOne hcopy f)
      (fun u' hu' _ => first_publish (hP _ ?_)) trivial
    have hmoved : { row.face with userId := user.id } ∈ faces u :=
      hu ▸ ⟨row.face, mem_faces hrow, moveOne_self rfl⟩
    exact hu' ▸ ⟨_, hmoved, moveOne_self rfl⟩
  · -- nobody else is running, so the row is still what it was read as
    obtain rfl := Table.eq_of_id hr hrow hrid
    have huser : settled.userId = r.userId := congrArg Face.userId hface
    simp [huser] at hstill

/-- A purchase that gives benefits and that no row of the account carries opens them. -/
theorem openPurchase_first {P : Store → Prop} (hm : Level m v) (again : Db ℕ)
    (integration : Integration) (user : User) {purchase : ProviderPurchase} (statedAt : Option ℕ)
    (hsame : samePurchase integration.id user.id purchase v = none)
    (hheard : refundHeard integration user purchase [] v = false)
    (hP : ∀ w, ¬GrantsNothing integration user purchase v w → P w) :
    (openPurchase again integration user purchase statedAt).Meets (first P) Unended g m b v := by
  simp only [refundHeard, List.any_nil, hsame, Option.isSome_none, Bool.false_or,
    Bool.or_eq_false_iff, Bool.not_eq_false', Option.isNone_eq_false_iff] at hheard
  obtain ⟨⟨⟨hover, hyes⟩, hexternal⟩, hproduct⟩ := hheard
  obtain ⟨product, hproduct⟩ := Option.isSome_iff_exists.mp hproduct
  obtain ⟨transaction, hid⟩ := Option.isSome_iff_exists.mp hexternal
  simp only [openPurchase, now, meets_bind, meets_query, ending_ok, hover, Bool.false_eq_true,
    if_false]
  rw [hproduct, hid]
  dsimp only
  rw [meets_bind]
  refine insertOrRead_level hm (fun row hrow => ?_) (fun _ u hu hlevel row t ht => ?_)
    (fun hnone u hu hlevel => ?_) trivial
  · have hmem := Table.mem_of_find hrow
    rw [ending_ok, meets_bind, meets_require_some, ending_ok]
    simp only [Bool.false_eq_true, if_false, meets_bind]
    refine subscriptionOf_level hm (fun settled m' hm' _ hface hsid => ?_) fun _ => trivial
    have hother := settled_other hsame (hid ▸ hrow) hface hsid
    rw [ending_ok, if_neg hother.2]
    have hholds := Table.find_holds hrow
    simp only [holds, Bool.and_eq_true, beq_iff_eq] at hholds
    refine handOver_first hm' hmem user fun w hw => hP w ?_
    refine grants_of_face hw hholds.1.1 (hholds.2.trans hid.symm) hexternal
      ((carriedFace_eligible purchase _).trans hyes) fun r hr hrid huser => ?_
    obtain rfl := Table.eq_of_id hr hmem hrid
    exact hother.2 (hother.1.symm.trans huser)
  · rw [ending_ok, meets_bind, meets_require_some, ending_ok]
    simp only [if_true, carry, now, meets_bind, meets_remember, meets_query, ending_ok]
    obtain ⟨hmake, -, hapart, -⟩ := Table.insert_eq_some ht
    have hgrown : Level m.flushed { v with subscriptions := t } :=
      hlevel.grow (faces_insert ht ▸ Set.subset_insert _ _)
    have hload : Level (Memory.load row m.flushed) { v with subscriptions := t } :=
      Level.load hgrown ((Table.mem_insert ht).mpr (.inr rfl))
    refine assign_level (carriedFace purchase) hload (fun _ => rfl) (fun m' hm' hcopy => ?_)
      fun _ => trivial
    rw [ending_ok, meets_bind]
    refine (activate_first hm' (owner_moveOne fun _ => rfl) (fun f _ => held_moveOne hcopy f)
      (fun f _ hf => ?_) fun w hw => hP w ?_).mono ?_
    · by_cases hfid : f.id = row.id
      · rw [moveOne_self hfid, carriedFace_eligible, hyes]
      · rw [moveOne_other hfid] at hf
        exact absurd hf hfid
    · have hopened : carriedFace purchase row.face ∈ faces w.subscriptions :=
        hw ▸ ⟨row.face, mem_faces ((Table.mem_insert ht).mpr (.inr rfl)), moveOne_self rfl⟩
      refine grants_of_face hopened ?_ ?_ hexternal
        ((carriedFace_eligible purchase _).trans hyes) fun r hr hrid => ?_
      · rw [hmake]
        rfl
      · rw [hmake]
        rfl
      · obtain ⟨a, ha, hface⟩ : r.face ∈ faces u := hu ▸ mem_faces hr
        exact absurd ((congrArg Face.id hface).trans hrid) (hapart a ha).1
    · rintro g (e | ⟨grants, m⟩) b v hk
      · trivial
      · exact hk
  · rw [ending_ok]
    cases hrow : Table.find u (holds integration.id (some transaction)) with
    | none => trivial
    | some row => exact absurd hnone (find_holds_faces hu hrow)

/-- A refunded purchase that is not heard opens its benefits first. -/
theorem takes_first (hm : Level m v) (integration : Integration) (user : User)
    (statedAt : Option ℕ) (n : ℕ) {purchase : ProviderPurchase} {ours : Ours}
    (hheard : refundHeard integration user purchase ours v = false) :
    (takes integration user statedAt n purchase ours).Meets
      (first fun w => ¬GrantsNothing integration user purchase v w) Unended g m b v := by
  have hours : ours.find? (·.1 == purchase.productReference) = none := by
    simp only [refundHeard, Bool.or_eq_false_iff] at hheard
    simpa [any_of_find] using hheard.1.1.1.1.1
  have hsame : samePurchase integration.id user.id purchase v = none := by
    simp only [refundHeard, Bool.or_eq_false_iff] at hheard
    simpa using hheard.1.1.1.1.2
  have hopen : refundHeard integration user purchase [] v = false := by
    simpa [refundHeard, any_of_find, hours] using hheard
  have hsettle : (settle integration user statedAt n purchase ours).Meets
      (first fun w => ¬GrantsNothing integration user purchase v w) Unended g m b v := by
    cases n with
    | zero => trivial
    | succ again =>
      rw [settle, hours]
      dsimp only
      rw [meets_bind, meets_query, ending_ok, hsame]
      exact (openPurchase_first hm _ integration user statedAt hsame hopen fun _ h => h).bind
        (fun _ _ _ _ _ hk => hk.elim) fun _ _ _ _ _ => trivial
  exact hsettle.bind (fun _ _ _ _ _ hk => hk.elim) fun _ _ _ _ _ => trivial

/-- A purchase that was refunded grants nothing exactly where its refund is looked at, or where
nothing would be opened for it anyway. -/
theorem refund_grants_nothing {integration : Integration} {user : User} {statedAt : Option ℕ}
    {n : ℕ} {purchase : ProviderPurchase} {ours : Ours} {m : Memory} {s : Store}
    {r : ℕ × Memory} (hrefund : purchase.refundedAt.isSome = true) (hlevel : Level m s)
    (hrun : ((takes integration user statedAt n purchase ours).run m s s).1 = .ok r) :
    (∀ t ∈ (takes integration user statedAt n purchase ours).commits m s s,
      GrantsNothing integration user purchase s t) ↔
      refundHeard integration user purchase ours s = true := by
  constructor
  · intro hall
    by_contra hnot
    have hfirst := takes_first (g := m) (b := s) hlevel integration user statedAt n
      (Bool.eq_false_iff.mpr hnot)
    obtain ⟨t, ht, hgrants⟩ := Outcome.Meets.committed hfirst hrun
    exact hgrants (hall t ht)
  · intro hheard t ht
    have htidy := takes_tidy (g := m) (b := s) ⟨hlevel, quiet_refl s⟩ integration user statedAt n
      hrefund hheard
    exact (Outcome.Meets.commits htidy t ht).grantsNothing integration user purchase

/-- A period that still runs of a purchase that was refunded as it was made. -/
def Shop.refunded : ProviderPurchase :=
  { Shop.renewal with refundedAt := some Shop.opening, status := none }

/-- A shop nobody bought anything in, whose plans pay credits. -/
def Shop.stocked : Store := Shop.new (Shop.catalog [Shop.credits 100])

/-- A shop the buyer has the plan of. -/
def Shop.subscribed : Store :=
  { stocked with
    subscriptions := ⟨[{ openedRow integration buyer ⟨50, 5, 1, 500, true⟩ refunded none 0 with
      status := .active }], 1, List.pairwise_singleton _ _, fun r hr => by
        rw [List.mem_singleton.mp hr]; decide⟩ }

/-- A refund is looked at where the account has the row, and not where it would be opened. -/
theorem refund_grants_nothing_shop :
    (∀ t ∈ (takes Shop.integration Shop.buyer none settleDepth Shop.refunded []).commits
        Memory.empty Shop.subscribed Shop.subscribed,
      GrantsNothing Shop.integration Shop.buyer Shop.refunded Shop.subscribed t) ∧
    ¬∀ t ∈ (takes Shop.integration Shop.buyer none settleDepth Shop.refunded []).commits
        Memory.empty Shop.stocked Shop.stocked,
      GrantsNothing Shop.integration Shop.buyer Shop.refunded Shop.stocked t := by
  have ends : ∀ s, ((takes Shop.integration Shop.buyer none settleDepth Shop.refunded []).run
      Memory.empty s s).1.isOk = true → ∃ r, ((takes Shop.integration Shop.buyer none settleDepth
        Shop.refunded []).run Memory.empty s s).1 = .ok r := fun s hok => by
    cases hrun : ((takes Shop.integration Shop.buyer none settleDepth Shop.refunded []).run
        Memory.empty s s).1 with
    | error e =>
      rw [hrun] at hok
      cases hok
    | ok r => exact ⟨r, rfl⟩
  obtain ⟨r, hheard⟩ := ends Shop.subscribed (by decide +kernel)
  obtain ⟨r', hopened⟩ := ends Shop.stocked (by decide +kernel)
  constructor
  · exact (refund_grants_nothing rfl (level_empty _) hheard).mpr (by decide +kernel)
  · intro h
    have hnot := (refund_grants_nothing rfl (level_empty _) hopened).mp h
    revert hnot
    decide +kernel

/-- A period that still runs of a purchase that was refunded opens a row and pays its credits. -/
theorem refund_pays_credits :
    ((takes Shop.integration Shop.buyer none settleDepth Shop.refunded []).run
      Memory.empty Shop.stocked Shop.stocked).1.isOk = true ∧
    ∃ t ∈ (takes Shop.integration Shop.buyer none settleDepth Shop.refunded []).commits
        Memory.empty Shop.stocked Shop.stocked,
      (∃ r ∈ t.subscriptions, r.isEligibleForBenefits = true) ∧
      ¬GrantsNothing Shop.integration Shop.buyer Shop.refunded Shop.stocked t := by
  have hpaid : ((takes Shop.integration Shop.buyer none settleDepth Shop.refunded []).commits
      Memory.empty Shop.stocked Shop.stocked).any (fun t =>
        t.subscriptions.rows.any (·.isEligibleForBenefits) && !t.grants.rows.isEmpty) = true := by
    decide +kernel
  obtain ⟨t, ht, hpaid⟩ := List.any_eq_true.mp hpaid
  rw [Bool.and_eq_true] at hpaid
  refine ⟨by decide +kernel, t, ht, List.any_eq_true.mp hpaid.1, fun h => ?_⟩
  rw [h.1] at hpaid
  exact absurd hpaid.2 (by decide)

end FastKit
