import FastKit.Reconciliation.Doors
import FastKit.Services.Sessions

/-! # What opening a purchase meets

What a row is told of its purchase collides where it may not follow what was bought, where the
session has it as somebody else's than it is, or where what the session had to write is refused.
-/

namespace FastKit
open Transaction Transaction.Program

section
variable {integration : Integration} {user : User} {product : ExternalProduct}
  {purchase : ProviderPurchase} {statedAt : Option ℕ} {m : Memory} {b v : Store} {row : Subscription}

section Repointing
variable (hrow : v.subscriptions.get row.id = some row) (hfind : m.find row.id = some row)
  (hproduct : mappedProduct integration.id purchase.productReference v = some product)
  (hi : row.integrationId = some integration.id)
include hrow hfind hproduct hi

/-- A row that may not follow what was bought is refused by the database. -/
theorem repoint_collides (hno : ¬MayFollow v.subscriptions integration product row) :
    repoint integration row.id purchase m b v = .done v (.error .integrity) := by
  have hread := subscriptionOf_loaded (b := b) (v := v) hfind
  rw [MayFollow, not_or] at hno
  have hmove := moveRow_eq (m := m) (b := b) (·.externalProductId == row.externalProductId)
    (fun r => { r with externalProductId := some product.id, planId := product.planId }) hrow
  rw [if_pos (beq_self_eq_true _)] at hmove
  cases ht : v.subscriptions.alter (·.id == row.id)
      (fun r => { r with externalProductId := some product.id, planId := product.planId }) with
  | some t => exact absurd ((alter_followed hrow hi).mp (by rw [ht]; rfl)) hno.2
  | none =>
    rw [ht] at hmove
    unfold repoint
    rw [bind_ok hread, query_bind, hproduct]
    dsimp only
    rw [if_neg (Ne.symm hno.1), bind_error hmove]

/-- A row read under the hold follows what was bought where it may. -/
theorem repoint_follows {taken : Bool} {name : Option ℕ}
    (hplan : (v.catalog.plans.find? (·.id == product.planId)).isSome = true)
    (hfollow : MayFollow v.subscriptions integration product row) (h : Unrenamed taken row.id name m v) :
    (repoint integration row.id purchase).Meets (solo fun _ => True)
      (ending (fun _ p _ w => Unrenamed taken row.id name p.2 w ∧
        (p.1 = false → p.2.find row.id = some row)) fun _ e _ _ => Collides taken e) () m b v := by
  have hread := subscriptionOf_loaded (b := b) (v := v) hfind
  unfold Meets repoint
  rw [bind_ok hread, query_bind, hproduct]
  dsimp only
  split_ifs with hsame
  · exact ⟨h, fun _ => hfind⟩
  · have hmove := moveRow_eq (m := m) (b := b) (·.externalProductId == row.externalProductId)
      (fun r => { r with externalProductId := some product.id, planId := product.planId }) hrow
    obtain ⟨t, ht⟩ := Option.isSome_iff_exists.mp
      ((alter_followed hrow hi).mpr (hfollow.resolve_left (Ne.symm hsame)))
    rw [if_pos (beq_self_eq_true _), ht] at hmove
    obtain ⟨plan, hplan⟩ := Option.isSome_iff_exists.mp hplan
    have hmoved := h.moved (by exact fun _ => ⟨rfl, rfl, rfl⟩) ht
    have hrest : (do
        let plan ← require .attributeError
          (← query (·.catalog.plans.find? (·.id == product.planId)))
        if plan.resumeDeliveryPolicy = .newCycle then
          let _ ← releaseCycle row.id
          pure true
        else pure true : Db Bool).Meets (solo fun _ => True)
          (ending (fun _ p _ w => Unrenamed taken row.id name p.2 w ∧
            (p.1 = false → p.2.find row.id = some row)) fun _ e _ _ => Collides taken e) ()
          (m.sync row.id
            (fun r => { r with externalProductId := some product.id, planId := product.planId })) b
          { v with subscriptions := t } := by
      rw [meets_bind, meets_query, ending_ok, meets_bind]
      change (require .attributeError
        (v.catalog.plans.find? (·.id == product.planId)) : Db Plan).Meets _ _ _ _ _ _
      rw [hplan, meets_require_some, ending_ok]
      have hnot : ∀ {m' : Memory}, true = false → m'.find row.id = some row := fun h => by cases h
      refine meets_ite.mpr ⟨fun _ => ?_, fun _ => ⟨hmoved, hnot⟩⟩
      exact (releaseCycle_unrenamed _ _ b _ hmoved).bind (fun _ _ _ _ _ h => ⟨h, hnot⟩)
        fun _ _ _ _ he => he
    rw [bind_ok hmove]
    exact hrest

end Repointing

/-- What is asked for once more where a row of the account turns out to carry the purchase. -/
def settleAgain (integration : Integration) (user : User) (purchase : ProviderPurchase)
    (statedAt : Option ℕ) (again : ℕ) : Db ℕ := do
  let (changes, _) ← settle integration user statedAt again purchase []
  pure changes

/-- A program and the commit an answer ends with. -/
def committed (c : Db ℕ) : Db ℕ := do
  let changes ← c
  commit
  pure changes

/-- Run alone and committed, the program ends in no collision. -/
def Spared (c : Db ℕ) (m : Memory) (b v : Store) : Prop :=
  ∀ e, ((committed c).run m b v).1 = .error e → e.collides = false

theorem spared_congr {c d : Db ℕ} {m' : Memory} {w : Store} (h : c m b v = d m' b w) :
    Spared c m b v ↔ Spared d m' b w := by
  unfold Spared run committed
  rw [bind_congr h]

theorem not_spared {c : Db ℕ} {w : Store} {e : Fault} (h : c m b v = .done w (.error e))
    (he : e.collides = true) : ¬Spared c m b v := by
  intro hspared
  have hno := hspared e (by unfold run committed; rw [bind_error h]; rfl)
  rw [he] at hno
  cases hno

/-- What keeps as much to write is spared where that is taken. -/
theorem spared_iff {taken : Bool} {c : Db ℕ} (h : Abides taken c m b v) :
    Spared c m b v ↔ taken = true := by
  have hmeets : (committed c).Meets (solo fun _ => True)
      (ending (fun _ _ _ _ => taken = true) fun _ e _ _ => Collides taken e) () m b v := by
    refine h.bind (fun _ changes m b v h => ?_) fun _ _ _ _ he => he
    have hpublish : (publish : Db Unit).Raises Unnamed (Collides taken) := raises_publish
    refine (flushing (k := fun _ => publish) (fun h => h ▸ rfl) (fun _ => hpublish) h).bind
      (fun _ _ _ _ _ h => h.1) fun _ _ _ _ he => he
  obtain ⟨_, hend⟩ := run_of_meets trivial (fun _ _ => rfl) hmeets
  unfold Spared
  cases hrun : ((committed c).run m b v).1 with
  | ok p =>
    rw [hrun] at hend
    exact ⟨fun _ => hend, fun _ _ he => by cases he⟩
  | error e =>
    rw [hrun] at hend
    have hcollides : e.collides = !taken := hend
    simp [hcollides]

/-- A stamp keeps what a row may follow. -/
theorem mayFollow_stamped : MayFollow (stamping row.id statedAt v).subscriptions integration product
    (stamped statedAt row) ↔ MayFollow v.subscriptions integration product row := by
  refine or_congr Iff.rfl ⟨fun h r hr hne hheld => ?_, fun h r hr hne hheld => ?_⟩
  · have hmem : (if r.id == row.id then stamped statedAt r else r) ∈
        (stamping row.id statedAt v).subscriptions := List.mem_map.mpr ⟨r, hr, rfl⟩
    refine h _ hmem ?_ ?_
    · split_ifs <;> exact hne
    · split_ifs <;> exact hheld
  · obtain ⟨a, ha, rfl⟩ := List.mem_map.mp hr
    split_ifs at hne hheld <;> exact h a ha hne hheld

/-- What a session has to write over the other rows is taken as it was, once the row is stamped and
read again. -/
theorem writable_stamped {taken : Bool} (statedAt : Option ℕ) (h : Writable taken (m.load row) v) :
    Writable taken (m.load (stamped statedAt row)) (stamping row.id statedAt v) := by
  refine h.congr ((Memory.pending_load _).trans (Memory.pending_load row).symm) ?_
  unfold rowNames stamping Table.modify
  rw [List.map_map]
  refine List.map_congr_left fun r _ => ?_
  simp only [Function.comp_apply]
  split_ifs <;> rfl

/-- A word taken once more for a row reads it again. -/
theorem hold_unrenamed {taken : Bool} {id : ℕ} {name : Option ℕ} (statedAt : Option ℕ)
    (h : Unrenamed taken id name m v) : (hold id statedAt).Meets (solo fun _ => True)
      (ending (fun _ p _ w => Writable taken p.2 w ∧
        (p.1 = true → ∃ row, p.2.find id = some row ∧ row.externalId = name))
      fun _ e _ _ => Collides taken e) () m b v := by
  unfold Meets
  cases hrow : v.subscriptions.get id with
  | none =>
    unfold hold
    rw [query_bind, hrow]
    exact ⟨h.writable, fun hfalse => absurd hfalse (by simp)⟩
  | some row =>
    obtain rfl : row.id = id := Table.id_of_get hrow
    rw [hold_done statedAt hrow]
    split_ifs
    · have hloaded := (Memory.pending_load row).trans (Memory.pendingBut_of_none h.own)
      exact ⟨writable_stamped statedAt (h.writable.congr hloaded rfl),
        fun _ => ⟨stamped statedAt row, find_load, h.rows row (Table.mem_of_get hrow) rfl⟩⟩
    · exact ⟨h.writable, fun hfalse => absurd hfalse (by simp)⟩

/-- What a row is told once it is the product's. -/
theorem aligned_writable {taken : Bool} {id : ℕ} (statedAt : Option ℕ) (moved : Bool)
    (hname : row.externalId = purchase.externalId) (h : Unrenamed taken id purchase.externalId m v)
    (hfind : moved = false → m.find id = some row) :
    Abides taken (do
      let held ← if moved then hold id statedAt else pure true
      if !held then pure 1
      else
        let changes ← align id purchase statedAt
        if !moved then pure changes
        else
          let _ ← activate id
          pure 1 : Db ℕ) m b v := by
  have hlast : ∀ changes : ℕ, (if !moved then pure changes
      else do
        let _ ← activate id
        pure 1 : Db ℕ).Raises (Writable taken) (Collides taken) := fun changes =>
    Raises.ite (raises_pure changes) ((activate_writable id).bind fun _ => raises_pure 1)
  have hrest : ∀ (held : Bool) m b v, Writable taken m v →
      (held = true → ∃ row, m.find id = some row ∧ row.externalId = purchase.externalId) →
      Abides taken (if !held then pure 1
      else do
        let changes ← align id purchase statedAt
        if !moved then pure changes
        else
          let _ ← activate id
          pure 1 : Db ℕ) m b v := by
    refine fun held m b v h hfind => meets_ite.mpr ⟨fun _ => h, fun hheld => ?_⟩
    obtain ⟨row, hfind, hname⟩ := hfind (by simpa using hheld)
    exact (align_writable h hfind statedAt hname).bind (fun _ changes m b v h => hlast changes m b v h)
      fun _ _ _ _ he => he
  refine meets_ite.mpr ⟨fun _ => ?_, fun hmoved => ?_⟩
  · exact (hold_unrenamed statedAt h).bind (fun _ held m b v h => hrest held m b v h.1 h.2)
      fun _ _ _ _ he => he
  · exact hrest true m b v h.writable fun _ => ⟨row, hfind (by simpa using hmoved), hname⟩

section Settling
variable (hrow : v.subscriptions.get row.id = some row)
include hrow

/-- What settling a row goes on with once its word is taken. -/
theorem settleRow_taken (htaken : Heard purchase statedAt row) :
    settleRow integration row.id purchase statedAt m b v =
      (do
        let moved ← repoint integration row.id purchase
        let held ← if moved then hold row.id statedAt else pure true
        if !held then pure 1
        else
          let changes ← align row.id purchase statedAt
          if !moved then pure changes
          else
            let _ ← activate row.id
            pure 1 : Db ℕ)
        (m.load (stamped statedAt row)) b (stamping row.id statedAt v) := by
  have hheld := hold_done (m := m) (b := b) statedAt hrow
  rw [if_pos htaken.1] at hheld
  have hread : subscriptionOf row.id (m.load (stamped statedAt row)) b (stamping row.id statedAt v) =
      .done (stamping row.id statedAt v) (.ok (stamped statedAt row, m.load (stamped statedAt row))) :=
    subscriptionOf_loaded find_load
  have hpending : ¬(statusOf purchase = .pending ∧ (stamped statedAt row).status ≠ .pending) :=
    htaken.2
  unfold settleRow
  rw [bind_ok hheld, if_neg (by simp), bind_ok hread, if_neg hpending]

/-- A word that is not taken changes no more than the stamp. -/
theorem settleRow_untaken (integration : Integration) {taken : Bool}
    (htaken : ¬Heard purchase statedAt row)
    (h : Writable taken (if orderly statedAt row then m.load row else m) v) :
    ∃ w m', Writable taken m' w ∧
      settleRow integration row.id purchase statedAt m b v = .done w (.ok (0, m')) := by
  have hheld := hold_done (m := m) (b := b) statedAt hrow
  unfold settleRow
  split_ifs at hheld h with horderly
  · have hpending : statusOf purchase = .pending ∧ (stamped statedAt row).status ≠ .pending :=
      not_not.mp (not_and.mp htaken horderly)
    have hread : subscriptionOf row.id (m.load (stamped statedAt row)) b (stamping row.id statedAt v) =
        .done (stamping row.id statedAt v) (.ok (stamped statedAt row, m.load (stamped statedAt row))) :=
      subscriptionOf_loaded find_load
    rw [bind_ok hheld, if_neg (by simp), bind_ok hread, if_pos hpending]
    exact ⟨_, _, writable_stamped statedAt h, rfl⟩
  · rw [bind_ok hheld]
    exact ⟨v, m, h, rfl⟩

variable (hproduct : mappedProduct integration.id purchase.productReference v = some product)
  (hholds : holds integration.id purchase.externalId row = true)
include hproduct hholds

/-- Where a row of the account is told of its purchase and may follow what was bought, nothing
collides but what the session had to write. -/
theorem settleRow_writable {taken : Bool}
    (hplan : (v.catalog.plans.find? (·.id == product.planId)).isSome = true)
    (hfollow : Heard purchase statedAt row → MayFollow v.subscriptions integration product row)
    (h : Writable taken (if orderly statedAt row then m.load row else m) v) :
    Abides taken (settleRow integration row.id purchase statedAt) m b v := by
  obtain ⟨hi, name, hname, hrowname⟩ := holds_iff.mp hholds
  unfold Abides Meets
  by_cases htaken : Heard purchase statedAt row
  · rw [if_pos htaken.1] at h
    have hget : (stamping row.id statedAt v).subscriptions.get (stamped statedAt row).id =
        some (stamped statedAt row) := stamping_get hrow
    have hunrenamed : Unrenamed taken (stamped statedAt row).id purchase.externalId
        (m.load (stamped statedAt row)) (stamping row.id statedAt v) := by
      refine ⟨writable_stamped statedAt h, fun l hl hid => ?_, fun r hr hid => ?_⟩
      · rcases List.mem_cons.mp hl with rfl | hl
        · exact Loaded.pending_none.mpr rfl
        · exact absurd hid (by simpa using (List.mem_filter.mp hl).2)
      · obtain rfl := Table.eq_of_id hr (Table.mem_of_get hget) hid
        exact hrowname.trans hname.symm
    rw [settleRow_taken hrow htaken]
    refine (repoint_follows (v := stamping row.id statedAt v) hget find_load hproduct hi hplan
      (mayFollow_stamped.mpr (hfollow htaken)) hunrenamed).bind (fun _ moved m b v h => ?_)
      fun _ _ _ _ he => he
    have hnow : (stamped statedAt row).externalId = purchase.externalId := hrowname.trans hname.symm
    exact aligned_writable statedAt moved hnow h.1 h.2
  · obtain ⟨w, m', hwritable, hdone⟩ := settleRow_untaken (b := b) hrow integration htaken h
    rw [hdone]
    exact hwritable

/-- A row that may not follow what was bought stops what it is told. -/
theorem settleRow_collides (htaken : Heard purchase statedAt row)
    (hno : ¬MayFollow v.subscriptions integration product row) :
    ∃ w, settleRow integration row.id purchase statedAt m b v = .done w (.error .integrity) := by
  have hget : (stamping row.id statedAt v).subscriptions.get (stamped statedAt row).id =
      some (stamped statedAt row) := stamping_get hrow
  have hcollides := repoint_collides (b := b) (v := stamping row.id statedAt v) hget
    (find_load (m := m)) hproduct (holds_iff.mp hholds).1 (mt mayFollow_stamped.mp hno)
  exact ⟨_, (settleRow_taken hrow htaken).trans (bind_error hcollides)⟩

omit hproduct in
/-- Where the account has the row, what is asked for once more is told to it. -/
theorem settleAgain_found (huser : row.userId = user.id) (again : ℕ) :
    settleAgain integration user purchase statedAt (again + 1) m b v =
      (do
        let _ ← subscriptionOf row.id
        settleRow integration row.id purchase statedAt : Db ℕ) m b v := by
  have hsame := samePurchase_row user hrow hholds
  rw [if_pos huser] at hsame
  unfold settleAgain settle
  simp only [List.find?_nil, bind_assoc]
  rw [query_bind, hsame]
  simp only [bind_assoc]
  refine congrFun (congrFun (congrFun (congrArg _ (funext fun _ => ?_)) m) b) v
  exact bind_pure _

/-- Where the session has a row as the account's that is another one's by now, the opening comes
round to itself. -/
theorem settleAgain_circles (hover : isOver purchase v.clock = false)
    (huser : row.userId ≠ user.id) {copy : Subscription} (hfind : m.find row.id = some copy)
    (hmine : copy.userId = user.id) (again : ℕ) :
    settleAgain integration user purchase statedAt again m b v = .done v (.error .recursion) := by
  induction again generalizing m copy with
  | zero => rfl
  | succ again ih =>
    obtain ⟨-, name, hname, -⟩ := holds_iff.mp hholds
    have hsame := samePurchase_row user hrow hholds
    rw [if_neg huser] at hsame
    have hcopy : copyOf m row = copy := by rw [copyOf, hfind]; rfl
    have hmine' : (copyOf m row).userId = user.id := by rwa [hcopy]
    obtain ⟨m', hreading, hdoor⟩ := answering_mine (b := b) hrow hmine'
    have hfind' := hreading.find
    rw [hcopy] at hfind'
    have hopen : openPurchase (settleAgain integration user purchase statedAt again) integration user
        purchase statedAt m b v = .done v (.error .recursion) := by
      rw [openPurchase_door _ hover hproduct (by rw [hname]; rfl)]
      have hfound : door integration user product purchase statedAt m b v =
          .done v (.ok (.settled, m')) := by
        unfold door insertOrRead
        simp only [bind_assoc]
        rw [query_bind, find_holds_row hrow hholds]
        exact hdoor
      rw [bind_ok hfound]
      exact ih hfind' hmine
    unfold settleAgain settle
    simp only [List.find?_nil, bind_assoc]
    rw [query_bind, hsame]
    simp only [bind_assoc]
    exact bind_error hopen

end Settling

section Meeting
variable (hrow : v.subscriptions.get row.id = some row)
  (hproduct : mappedProduct integration.id purchase.productReference v = some product)
  (hholds : holds integration.id purchase.externalId row = true)
include hrow hholds

/-- What follows of a row the session has as the account's is told to the account's row. -/
theorem mine_told (statedAt : Option ℕ) (hmine : (copyOf m row).userId = user.id) (again : ℕ) :
    ∃ m', Reading m row m' ∧ answering user row.id m b v = .done v (.ok (.settled, m')) ∧
      (answering user row.id >>= through user purchase
        (settleAgain integration user purchase statedAt (again + 1))) m b v =
        settleAgain integration user purchase statedAt (again + 1) m' b v ∧
      (row.userId = user.id → settleAgain integration user purchase statedAt (again + 1) m' b v =
        settleRow integration row.id purchase statedAt m' b v) := by
  obtain ⟨m', hreading, hdone⟩ := answering_mine (b := b) hrow hmine
  have hread := subscriptionOf_loaded (b := b) (v := v) hreading.find
  exact ⟨m', hreading, hdone, bind_ok hdone,
    fun huser => (settleAgain_found hrow hholds huser again).trans (bind_ok hread)⟩

include hproduct

/-- Nothing collides over a row the session has as the account's exactly where it is answered for. -/
theorem mine_spared_iff (hover : isOver purchase v.clock = false)
    (hplan : (v.catalog.plans.find? (·.id == product.planId)).isSome = true)
    (hmine : (copyOf m row).userId = user.id) (again : ℕ) :
    Spared (answering user row.id >>= through user purchase
      (settleAgain integration user purchase statedAt (again + 1))) m b v ↔
      Answers integration user product purchase statedAt m v.subscriptions row := by
  obtain ⟨m', hreading, -, hthrough, htold⟩ := mine_told (b := b) hrow hholds statedAt hmine again
  rw [spared_congr hthrough, Answers, if_pos hmine]
  by_cases huser : row.userId = user.id
  · rw [spared_congr (htold huser)]
    by_cases hfollow : Heard purchase statedAt row → MayFollow v.subscriptions integration product row
    · have hwritable : Writable (flushedInto (if orderly statedAt row then m.load row else m)
          v.subscriptions).isSome (if orderly statedAt row then m'.load row else m') v := by
        refine Writable.congr (v := v) rfl ?_ rfl
        split_ifs
        · exact (Memory.pending_load row).trans (hreading.but.trans (Memory.pending_load row).symm)
        · exact hreading.pending
      rw [spared_iff (settleRow_writable hrow hproduct hholds hplan hfollow hwritable)]
      exact ⟨fun h => ⟨huser, hfollow, h⟩, fun h => h.2.2⟩
    · obtain ⟨htaken, hno⟩ := Classical.not_imp.mp hfollow
      obtain ⟨w, hcollides⟩ := settleRow_collides (m := m') (b := b) hrow hproduct hholds htaken hno
      exact iff_of_false (not_spared hcollides rfl) fun h => hfollow h.2.1
  · have hcircles : settleAgain integration user purchase statedAt (again + 1) m' b v =
        .done v (.error .recursion) :=
      settleAgain_circles hrow hproduct hholds hover huser hreading.find hmine (again + 1)
    exact iff_of_false (not_spared hcircles rfl) fun h => huser h.1

omit hproduct hholds in
/-- Nothing collides over a row the session has as another account's exactly where it is answered
for. -/
theorem other_spared_iff (hother : (copyOf m row).userId ≠ user.id) (again : Db ℕ) :
    Spared (answering user row.id >>= through user purchase again) m b v ↔
      Answers integration user product purchase statedAt m v.subscriptions row := by
  rw [Answers, if_neg hother]
  split_ifs with hpassed
  · obtain ⟨m', hdone, hpending⟩ := answering_passed (b := b) hrow hother hpassed
    rw [spared_congr (bind_ok hdone)]
    refine spared_iff ?_
    exact Writable.congr (v := v) rfl hpending rfl
  · have hstill := not_not.mp hpassed
    by_cases htake : MayTake v.subscriptions user row
    · obtain ⟨t, m', copy, hdone, hnames, hpending, hfind⟩ :=
        answering_taken (b := b) hrow hother hstill htake
      rw [spared_congr (bind_ok hdone), and_iff_right htake]
      exact spared_iff (handed_writable (Writable.congr (v := v) rfl hpending hnames) hfind _ _)
    · have hcollides := answering_collides (b := b) hrow hother hstill htake
      exact iff_of_false (not_spared (bind_error hcollides) rfl) fun h => htake h.1

/-- An opening that meets a row of the transaction goes through exactly where the row is answered
for. -/
theorem meeting_iff (hover : isOver purchase v.clock = false)
    (hplan : (v.catalog.plans.find? (·.id == product.planId)).isSome = true) (again : ℕ) :
    ((∃ w d m', answering user row.id m b v = .done w (.ok (d, m'))) ∧
      Spared (answering user row.id >>= through user purchase
        (settleAgain integration user purchase statedAt (again + 1))) m b v) ↔
      Answers integration user product purchase statedAt m v.subscriptions row := by
  by_cases hmine : (copyOf m row).userId = user.id
  · obtain ⟨m', -, hdone⟩ := answering_mine (b := b) hrow hmine
    rw [and_iff_right ⟨v, _, m', hdone⟩]
    exact mine_spared_iff hrow hproduct hholds hover hplan hmine again
  · rw [other_spared_iff hrow hmine]
    refine and_iff_right_of_imp fun hanswers => ?_
    rw [Answers, if_neg hmine] at hanswers
    split_ifs at hanswers with hpassed
    · obtain ⟨m', hdone, -⟩ := answering_passed (b := b) hrow hmine hpassed
      exact ⟨_, _, m', hdone⟩
    · obtain ⟨t, m', -, hdone, -⟩ :=
        answering_taken (b := b) hrow hmine (not_not.mp hpassed) hanswers.1
      exact ⟨_, _, m', hdone⟩

end Meeting

/-- An opening meets nothing it cannot go on from: a row of the transaction that is answered
for, or no row of the account for the product. -/
def Opens (integration : Integration) (user : User) (product : ExternalProduct)
    (purchase : ProviderPurchase) (statedAt : Option ℕ) (m : Memory) (t : Table Subscription) : Prop :=
  match t.find (holds integration.id purchase.externalId) with
  | some row => Answers integration user product purchase statedAt m t row
  | none => ∃ u, flushedInto m t = some u ∧
    match u.find (holds integration.id purchase.externalId) with
    | some row => Answers integration user product purchase statedAt m.flushed u row
    | none => ∀ r ∈ u, ¬Holding user.id integration.id product.id r

section Doors
variable (hfind : v.subscriptions.find (holds integration.id purchase.externalId) = none)

theorem door_found (h : v.subscriptions.find (holds integration.id purchase.externalId) = some row) :
    door integration user product purchase statedAt m b v = answering user row.id m b v := by
  unfold door insertOrRead
  simp only [bind_assoc]
  rw [query_bind, h]
  rfl

include hfind

theorem door_refused (hflush : flushedInto m v.subscriptions = none) :
    door integration user product purchase statedAt m b v = .done v (.error .integrity) := by
  unfold door insertOrRead
  simp only [bind_assoc]
  rw [query_bind, hfind]
  dsimp only
  rw [bind_assoc, bind_error (flush_refused hflush)]

variable {u : Table Subscription} (hflush : flushedInto m v.subscriptions = some u)
include hflush

theorem door_opened {t : Table Subscription}
    (hinsert : u.insert (openedRow integration user product purchase statedAt) = some (row, t)) :
    door integration user product purchase statedAt m b v =
      .done { v with subscriptions := t } (.ok (.opened row.id, m.flushed.load row)) := by
  unfold door insertOrRead
  simp only [bind_assoc]
  rw [query_bind, hfind]
  dsimp only
  rw [bind_assoc, bind_ok (flush_done hflush), bind_assoc, query_bind, hinsert]
  rfl

/-- An insert that is refused is answered by the row of the transaction, or by nothing. -/
theorem door_lost (hinsert : u.insert (openedRow integration user product purchase statedAt) = none) :
    door integration user product purchase statedAt m b v =
      match u.find (holds integration.id purchase.externalId) with
      | some row => answering user row.id m.flushed b { v with subscriptions := u }
      | none => .done { v with subscriptions := u } (.error .attributeError) := by
  unfold door insertOrRead
  simp only [bind_assoc]
  rw [query_bind, hfind]
  dsimp only
  rw [bind_assoc, bind_ok (flush_done hflush), bind_assoc, query_bind, hinsert]
  dsimp only
  rw [query_bind]
  cases u.find (holds integration.id purchase.externalId) <;> rfl

end Doors

/-- An opening comes to a row and goes on from it with no collision, alone from where it is to the
commit. -/
def GoesThrough (integration : Integration) (user : User) (product : ExternalProduct)
    (purchase : ProviderPurchase) (statedAt : Option ℕ) (again : ℕ) (m : Memory) (b v : Store) : Prop :=
  (∃ w d m', door integration user product purchase statedAt m b v = .done w (.ok (d, m'))) ∧
    Spared (openPurchase (settleAgain integration user purchase statedAt again) integration user
      purchase statedAt) m b v

theorem not_goesThrough {w : Store} {e : Fault} {again : ℕ}
    (hdoor : door integration user product purchase statedAt m b v = .done w (.error e)) :
    ¬GoesThrough integration user product purchase statedAt again m b v := by
  rintro ⟨⟨w', d, m', hdone⟩, -⟩
  rw [hdoor] at hdone
  cases hdone

/-- A row that was inserted is carried with no collision. -/
theorem goesThrough_opened {w : Store} {id : ℕ} {m' : Memory} (again : ℕ)
    (hopen : openPurchase (settleAgain integration user purchase statedAt again) integration user
      purchase statedAt m b v = (door integration user product purchase statedAt >>=
        through user purchase (settleAgain integration user purchase statedAt again)) m b v)
    (hdoor : door integration user product purchase statedAt m b v = .done w (.ok (.opened id, m')))
    (hfind : m'.find id = some row) (h : Writable true m' w) :
    GoesThrough integration user product purchase statedAt again m b v := by
  have hactivated : (do
      let _ ← activate id
      pure 1 : Db ℕ).Raises (Writable true) (Collides true) :=
    (activate_writable id).bind fun _ => raises_pure 1
  refine ⟨⟨w, _, m', hdoor⟩, ?_⟩
  rw [spared_congr hopen, spared_congr (bind_ok hdoor)]
  have hcarried : (through user purchase (settleAgain integration user purchase statedAt again)
      (.opened id)).Meets (solo fun _ => True)
      (ending (fun _ p _ w => Writable true p.2 w) fun _ e _ _ => Collides true e) () m' b w := by
    unfold Meets through
    dsimp only
    rw [bind_ok (carry_loaded hfind)]
    exact hactivated _ b w (h.assign fun _ => rfl)
  exact (spared_iff hcarried).mpr rfl

/-- Opening a mapped purchase that is not over, of a product with a plan, comes to a row, the inserted
one or one it finds, and settles, hands over or carries it and is committed with no collision exactly
where it meets nothing it cannot go on from. -/
theorem opening_goes_on_iff (again : ℕ) (hover : isOver purchase v.clock = false)
    (hproduct : mappedProduct integration.id purchase.productReference v = some product)
    (hplan : (v.catalog.plans.find? (·.id == product.planId)).isSome = true)
    (hid : purchase.externalId.isSome = true) :
    GoesThrough integration user product purchase statedAt (again + 1) m b v ↔
      Opens integration user product purchase statedAt m v.subscriptions := by
  have hopen : openPurchase (settleAgain integration user purchase statedAt (again + 1)) integration user
      purchase statedAt m b v = (door integration user product purchase statedAt >>=
        through user purchase (settleAgain integration user purchase statedAt (again + 1))) m b v :=
    openPurchase_door _ hover hproduct hid
  -- the row of the transaction is met where the session is then
  have hfound : ∀ (v' : Store) {m' : Memory} {row : Subscription},
      v'.subscriptions.find (holds integration.id purchase.externalId) = some row →
      v'.clock = v.clock → v'.catalog = v.catalog →
      door integration user product purchase statedAt m b v = answering user row.id m' b v' →
      (GoesThrough integration user product purchase statedAt (again + 1) m b v ↔
        Answers integration user product purchase statedAt m' v'.subscriptions row) := by
    intro v' m' row hfind hclock hcatalog hdoor
    have hproduct' : mappedProduct integration.id purchase.productReference v' = some product := by
      rw [← hproduct, mappedProduct, mappedProduct, hcatalog]
    unfold GoesThrough
    rw [spared_congr hopen, spared_congr (bind_congr hdoor), hdoor]
    exact meeting_iff (Table.get_of_mem (Table.mem_of_find hfind)) hproduct' (Table.find_holds hfind)
      (hclock ▸ hover) (hcatalog ▸ hplan) again
  unfold Opens
  cases hfind : v.subscriptions.find (holds integration.id purchase.externalId) with
  | some row => exact hfound v hfind rfl rfl (door_found hfind)
  | none =>
    cases hflush : flushedInto m v.subscriptions with
    | none =>
      refine iff_of_false (not_goesThrough (door_refused hfind hflush)) ?_
      rintro ⟨u, hu, -⟩
      cases hu
    | some u =>
      have hinsert := @insert_opened integration user product purchase statedAt u
      simp only [Option.some.injEq, exists_eq_left']
      cases hnew : u.insert (openedRow integration user product purchase statedAt) with
      | some inserted =>
        obtain ⟨hnone, hfree⟩ := hinsert.mp (by rw [hnew]; rfl)
        have hread : u.find (holds integration.id purchase.externalId) = none :=
          List.find?_eq_none.mpr fun r hr => by simp [hnone r hr]
        rw [hread]
        have hdoor := door_opened (b := b) hfind hflush hnew
        refine iff_of_true (goesThrough_opened _ hopen hdoor find_load ?_) hfree
        exact Unnamed.writable (Unnamed.load Memory.pending_flushed)
      | none =>
        have hlost := door_lost (b := b) hfind hflush hnew
        cases hread : u.find (holds integration.id purchase.externalId) with
        | some row =>
          rw [hread] at hlost
          exact hfound { v with subscriptions := u } hread rfl rfl hlost
        | none =>
          rw [hread] at hlost
          refine iff_of_false (not_goesThrough hlost) fun hfree => ?_
          have hsome := hinsert.mpr ⟨fun r hr => Table.find_none hread hr, hfree⟩
          rw [hnew] at hsome
          cases hsome

end

namespace Shop

/-- The basic plan once more, under a transaction of its own. -/
def second : ProviderPurchase := { purchase with externalId := some 899 }

/-- The product of the basic plan in the catalogue. -/
def product : ExternalProduct := ⟨50, 5, 1, 500, true⟩

/-- The row another session opened of the second purchase. -/
def crowded : Store :=
  { new (catalog []) with
    subscriptions := ⟨[openedRow integration buyer product second none 0], 1,
      List.pairwise_singleton _ _, fun r hr => by rw [List.mem_singleton.mp hr]; decide⟩ }

/-- The transaction has a row of the account, of another product. -/
def upgraded : Store :=
  { new (catalog []) with
    subscriptions := ⟨[openedRow integration buyer ⟨51, 5, 2, 510, true⟩ purchase none 0], 1,
      List.pairwise_singleton _ _, fun r hr => by rw [List.mem_singleton.mp hr]; decide⟩ }

/-- It has one, and the product has another of the account. -/
def crossed : Store :=
  { new (catalog []) with
    subscriptions := ⟨[openedRow integration buyer ⟨51, 5, 2, 510, true⟩ purchase none 0,
      openedRow integration buyer product second none 1], 2, by decide, by decide⟩ }

def raised {α : Type} : Except Fault α → Option String
  | .ok _ => none
  | .error e => some e.name

end Shop

/-- An opening in a store nobody bought anything in, and one that finds its transaction at another
product of the account. -/
theorem opening_goes_on_shop :
    GoesThrough Shop.integration Shop.buyer Shop.product Shop.purchase none 2 Memory.empty
      (Shop.new (Shop.catalog [])) (Shop.new (Shop.catalog [])) ∧
    GoesThrough Shop.integration Shop.buyer Shop.product Shop.purchase none 2 Memory.empty
      Shop.upgraded Shop.upgraded := by
  refine ⟨(opening_goes_on_iff 1 rfl rfl rfl rfl).mpr ⟨.empty, rfl, ?_⟩,
    (opening_goes_on_iff 1 rfl rfl rfl rfl).mpr ⟨rfl, fun _ => .inr ?_, rfl⟩⟩
  · exact fun r hr => absurd hr Table.not_mem_empty
  · intro r hr hne
    obtain rfl := List.mem_singleton.mp hr
    exact absurd rfl hne

/-- A row of the account for the product, under another transaction, stops the opening: where nothing
has the transaction, and where a row of another product has it. So does one answer that lists the
product twice. -/
theorem opening_fails_on_product :
    Shop.raised ((openPurchase (settleAgain Shop.integration Shop.buyer Shop.purchase none 2)
      Shop.integration Shop.buyer Shop.purchase none).run Memory.empty Shop.crowded Shop.crowded).1 =
        some "AttributeError" ∧
    Shop.raised ((openPurchase (settleAgain Shop.integration Shop.buyer Shop.purchase none 2)
      Shop.integration Shop.buyer Shop.purchase none).run Memory.empty Shop.crossed Shop.crossed).1 =
        some "IntegrityError" ∧
    Shop.raised ((apply Shop.integration Shop.buyer [Shop.purchase, Shop.second] true none).run
      Memory.empty (Shop.new (Shop.catalog [])) (Shop.new (Shop.catalog []))).1 =
        some "AttributeError" := by
  refine ⟨?_, ?_, ?_⟩ <;> decide +kernel

end FastKit
