import FastKit.Reconciliation.Raises

/-! # The door of an opening

A subscription has two names: the transaction inside its integration, and the account with the
product. An insert is refused where either is taken, and what is read back is the row of the
transaction, which a session may have as another one's than it is.
-/

namespace FastKit
open Transaction Transaction.Program

/-- What opening a purchase came to: the row it inserted, a row of the account that has the
transaction, or one of another account, as the session had it and whether it was moved. -/
inductive Door where
  | opened (id : ℕ)
  | settled
  | handed (id : ℕ) (subscription : Subscription) (moved : Bool)

section
variable (integration : Integration) (user : User) (product : ExternalProduct)
  (purchase : ProviderPurchase) (statedAt : Option ℕ)

/-- Where the transaction has a row, the account's is settled and another one's moved. -/
def answering (id : ℕ) : Db Door := do
  let settled ← subscriptionOf id
  if settled.userId = user.id then pure .settled
  else
    let subscription ← subscriptionOf id
    let moved ← moveRow id (·.userId == subscription.userId) (fun r => { r with userId := user.id })
    pure (.handed id subscription moved)

/-- The part of an opening that may collide. -/
def door : Db Door := do
  let (row, inserted) ← require .attributeError
    (← insertOrRead Store.subscriptions (fun t s => { s with subscriptions := t })
      (holds integration.id purchase.externalId)
      (openedRow integration user product purchase statedAt))
  if inserted then
    remember (Memory.load row)
    pure (.opened row.id)
  else answering user row.id

/-- What follows of an opening once it came through. -/
def through (again : Db ℕ) : Door → Db ℕ
  | .opened id => do
    carry id purchase
    let _ ← activate id
    pure 1
  | .settled => again
  | .handed id subscription moved =>
    if !moved then pure 0
    else do
      endBenefits id
      carry id purchase
      commit
      record subscription.tenantId user.id .info (.receiptPassedOn id subscription.userId user.id)
      let _ ← releaseCycle id
      let _ ← activate id
      pure 1

end

section
variable {integration : Integration} {user : User} {product : ExternalProduct}
  {purchase : ProviderPurchase} {statedAt : Option ℕ} {m : Memory} {b v : Store} {row : Subscription}

/-- A mapped purchase that is not over is opened through a door. -/
theorem openPurchase_door (again : Db ℕ) (hover : isOver purchase v.clock = false)
    (hproduct : mappedProduct integration.id purchase.productReference v = some product)
    (hid : purchase.externalId.isSome = true) :
    openPurchase again integration user purchase statedAt m b v =
      (door integration user product purchase statedAt >>= through user purchase again) m b v := by
  obtain ⟨transaction, htransaction⟩ := Option.isSome_iff_exists.mp hid
  have hopen : openPurchase again integration user purchase statedAt m b v =
      (do
        let (row, inserted) ← require .attributeError
          (← insertOrRead Store.subscriptions (fun t s => { s with subscriptions := t })
            (holds integration.id purchase.externalId)
            (openedRow integration user product purchase statedAt))
        if inserted then
          remember (Memory.load row)
          carry row.id purchase
          let _ ← activate row.id
          pure 1
        else
          let settled ← subscriptionOf row.id
          if settled.userId = user.id then again else handOver row.id user purchase : Db ℕ)
        m b v := by
    unfold openPurchase now
    rw [query_bind, if_neg (by simp [hover]), query_bind, hproduct, htransaction]
  rw [hopen, door, bind_assoc]
  refine congrFun (congrFun (congrFun (congrArg _ (funext fun found => ?_)) m) b) v
  rw [bind_assoc]
  refine congrArg _ (funext fun ⟨row, inserted⟩ => ?_)
  cases inserted with
  | true => rfl
  | false =>
    simp only [Bool.false_eq_true, if_false, answering, bind_assoc]
    refine congrArg _ (funext fun settled => ?_)
    split_ifs
    · rfl
    · simp only [handOver, bind_assoc]
      rfl

theorem openedRow_keys {id : ℕ} {k : SubscriptionKey} :
    k ∈ (openedRow integration user product purchase statedAt id).keys ↔
      (∃ transaction, purchase.externalId = some transaction ∧
        k = .external integration.id transaction) ∨ k = .product user.id integration.id product.id := by
  cases h : purchase.externalId <;> simp [Subscription.keys, openedRow, h]

theorem holds_iff {integrationId : ℕ} {transaction : Option ℕ} {r : Subscription} :
    holds integrationId transaction r = true ↔ r.integrationId = some integrationId ∧
      ∃ name, transaction = some name ∧ r.externalId = some name := by
  cases transaction <;> simp [holds]

/-- The insert of an opening is refused where the transaction is there, or the account has the
product under another one. -/
theorem insert_opened (t : Table Subscription) :
    (t.insert (openedRow integration user product purchase statedAt)).isSome = true ↔
      (∀ r ∈ t, holds integration.id purchase.externalId r = false) ∧
        ∀ r ∈ t, ¬Holding user.id integration.id product.id r := by
  rw [Table.insert_isSome rfl]
  constructor
  · intro h
    refine ⟨fun r hr => ?_, fun r hr hheld => ?_⟩
    · by_contra hholds
      obtain ⟨hi, name, hname, hr'⟩ := holds_iff.mp (Bool.not_eq_false _ ▸ hholds)
      exact h r hr _ (external_mem_keys.mpr ⟨hi, hr'⟩) (openedRow_keys.mpr (.inl ⟨name, hname, rfl⟩))
    · exact h r hr _ (product_mem_keys.mpr hheld) (openedRow_keys.mpr (.inr rfl))
  · rintro ⟨htransaction, hproduct⟩ r hr k hk hopened
    rcases openedRow_keys.mp hopened with ⟨name, hname, rfl⟩ | rfl
    · obtain ⟨hi, hr'⟩ := external_mem_keys.mp hk
      have hholds := holds_iff.mpr ⟨hi, name, hname, hr'⟩
      rw [htransaction r hr] at hholds
      cases hholds
    · exact hproduct r hr (product_mem_keys.mp hk)

/-- The copy a session has of a row, or the row. -/
def copyOf (m : Memory) (row : Subscription) : Subscription := (m.find row.id).getD row

/-- What a session has once it read a row it may have had: it has as much to write. -/
structure Reading (m : Memory) (row : Subscription) (m' : Memory) : Prop where
  find : m'.find row.id = some (copyOf m row)
  pending : m'.pending = m.pending
  but : m'.pendingBut row.id = m.pendingBut row.id

theorem subscriptionOf_done (h : v.subscriptions.get row.id = some row) :
    ∃ m', Reading m row m' ∧ subscriptionOf row.id m b v = .done v (.ok (copyOf m row, m')) := by
  unfold subscriptionOf
  rw [remembered_bind]
  cases hm : m.find row.id with
  | some copy =>
    have hcopy : copyOf m row = copy := by rw [copyOf, hm, Option.getD_some]
    exact ⟨m, ⟨hcopy ▸ hm, rfl, rfl⟩, by rw [hcopy]; rfl⟩
  | none =>
    have hcopy : copyOf m row = row := by rw [copyOf, hm, Option.getD_none]
    have hnone : ∀ l ∈ m.subscriptions, l.loaded.id = row.id → l.pending = none := fun l hl hid =>
      absurd hid (by simpa using List.find?_eq_none.mp (Option.map_eq_none_iff.mp hm) l hl)
    dsimp only
    rw [query_bind, h, hcopy]
    exact ⟨m.load row, ⟨by rw [hcopy, find_load], (Memory.pending_load row).trans
      (Memory.pendingBut_of_none hnone), Memory.pendingBut_load row⟩, rfl⟩

/-- The account may take a row over: it has no other row of the row's product. -/
def MayTake (t : Table Subscription) (user : User) (row : Subscription) : Prop :=
  ∀ integrationId productId, row.integrationId = some integrationId →
    row.externalProductId = some productId →
    ∀ r ∈ t, r.id ≠ row.id → ¬Holding user.id integrationId productId r

theorem alter_taken (user : User) {t : Table Subscription} (hrow : t.get row.id = some row) :
    (t.alter (·.id == row.id) (fun r => { r with userId := user.id })).isSome = true ↔
      MayTake t user row := by
  have hone := Table.alter_one_isSome (f := fun r : Subscription => { r with userId := user.id })
    hrow fun _ => rfl
  refine hone.trans ?_
  constructor
  · intro h integrationId productId hi hp r hr hne hheld
    exact h r hr hne _ (product_mem_keys.mpr hheld) (product_mem_keys.mpr ⟨hi, rfl, hp⟩)
  · intro h r hr hne k hk hk'
    cases k with
    | external integrationId transaction =>
      have hr' := external_mem_keys.mp hk
      have hrow' := external_mem_keys.mp hk'
      have hmine : .external integrationId transaction ∈ row.keys :=
        external_mem_keys.mpr hrow'
      exact hne (congrArg (·.id) (Table.eq_of_key hr (Table.mem_of_get hrow) hk hmine))
    | product userId integrationId productId =>
      obtain ⟨hi, hu, hp⟩ := product_mem_keys.mp hk'
      obtain rfl : user.id = userId := hu
      exact h integrationId productId hi hp r hr hne (product_mem_keys.mp hk)

/-- A row rewritten where it still is what it was read as. -/
theorem moveRow_eq (still : Subscription → Bool) (f : Subscription → Subscription) {id : ℕ}
    (hrow : v.subscriptions.get id = some row) : moveRow id still f m b v =
      if still row then
        match v.subscriptions.alter (·.id == id) f with
        | some t => .done { v with subscriptions := t } (.ok (true, m.sync id f))
        | none => .done v (.error .integrity)
      else .done v (.ok (false, (m.sync id f).load row)) := by
  have hmove : moveRow id still f m b v = (if (v.subscriptions.get id).any still then do
        let t ← require .integrity (← query (·.subscriptions.alter (·.id == id) f))
        execute (fun s => { s with subscriptions := t })
        pure true
      else do
        let _ ← refresh id
        pure false : Db Bool) (Memory.sync id f m) b v := rfl
  rw [hmove, hrow, Option.any_some]
  split_ifs
  · rw [query_bind]
    cases v.subscriptions.alter (·.id == id) f <;> rfl
  · have hrefresh : refresh id (Memory.sync id f m) b v =
        .done v (.ok (row, Memory.load row (Memory.sync id f m))) := by
      unfold refresh
      rw [query_bind, hrow]
      rfl
    rw [bind_ok hrefresh]
    rfl

/-- A row with the stamp of a word. -/
def stamped (statedAt : Option ℕ) (r : Subscription) : Subscription :=
  { r with statedAt := statedAt <|> r.statedAt }

theorem still_stamped (statedAt : Option ℕ) : Still (stamped statedAt) := fun _ => ⟨rfl, rfl⟩

/-- The store with the word of a row stamped. -/
def stamping (id : ℕ) (statedAt : Option ℕ) (s : Store) : Store :=
  { s with
    subscriptions := s.subscriptions.modify (·.id == id) (stamped statedAt) (still_stamped statedAt) }

theorem stamping_get (hrow : v.subscriptions.get row.id = some row) :
    (stamping row.id statedAt v).subscriptions.get row.id = some (stamped statedAt row) := by
  refine (Table.get_modify (still_stamped statedAt)).trans ?_
  rw [hrow]
  simp

theorem hold_done (statedAt : Option ℕ) (hrow : v.subscriptions.get row.id = some row) :
    hold row.id statedAt m b v = if orderly statedAt row
      then .done (stamping row.id statedAt v) (.ok (true, m.load (stamped statedAt row)))
      else .done v (.ok (false, m)) := by
  have hrefresh : refresh row.id m b (stamping row.id statedAt v) =
      .done (stamping row.id statedAt v) (.ok (stamped statedAt row, m.load (stamped statedAt row))) := by
    unfold refresh
    rw [query_bind, stamping_get hrow]
    rfl
  unfold hold
  rw [query_bind, hrow, Option.any_some]
  split_ifs
  · change (refresh row.id >>= fun _ => (pure true : Db Bool)) m b (stamping row.id statedAt v) = _
    rw [bind_ok hrefresh]
    rfl
  · rfl

/-- The row of a transaction is the one that is found. -/
theorem find_holds_row (hrow : v.subscriptions.get row.id = some row)
    (hholds : holds integration.id purchase.externalId row = true) :
    v.subscriptions.find (holds integration.id purchase.externalId) = some row := by
  obtain ⟨a, ha⟩ := Table.find_isSome (Table.mem_of_get hrow) hholds
  obtain ⟨hi, name, hname, hext⟩ := holds_iff.mp (Table.find_holds ha)
  obtain ⟨hi', name', hname', hext'⟩ := holds_iff.mp hholds
  obtain rfl : name = name' := Option.some.inj (hname.symm.trans hname')
  rw [ha, Table.eq_of_key (Table.mem_of_find ha) (Table.mem_of_get hrow)
    (external_mem_keys.mpr ⟨hi, hext⟩) (external_mem_keys.mpr ⟨hi', hext'⟩)]

/-- The row of a transaction is what the account's purchase is found by. -/
theorem samePurchase_row (user : User) (hrow : v.subscriptions.get row.id = some row)
    (hholds : holds integration.id purchase.externalId row = true) :
    samePurchase integration.id user.id purchase v =
      if row.userId = user.id then some row.id else none := by
  obtain ⟨hi, name, hname, hrowname⟩ := holds_iff.mp hholds
  have hone : ∀ r ∈ v.subscriptions, (r.integrationId == some integration.id &&
      r.userId == user.id && r.externalId == some name) = true → r = row := by
    intro r hr hmine
    simp only [Bool.and_eq_true, beq_iff_eq] at hmine
    exact Table.eq_of_key hr (Table.mem_of_get hrow)
      (external_mem_keys.mpr ⟨hmine.1.1, hmine.2⟩) (external_mem_keys.mpr ⟨hi, hrowname⟩)
  unfold samePurchase
  rw [hname, Option.bind_some]
  split_ifs with huser
  · obtain ⟨a, ha⟩ := Table.find_isSome (p := fun r : Subscription =>
      r.integrationId == some integration.id && r.userId == user.id && r.externalId == some name)
      (Table.mem_of_get hrow) (by simp [hi, huser, hrowname])
    have hp := Table.find_holds ha
    rw [ha, hone a (Table.mem_of_find ha) hp]
    rfl
  · rw [Option.map_eq_none_iff]
    refine List.find?_eq_none.mpr fun r hr hmine => ?_
    obtain rfl := hone r hr (by simpa using hmine)
    simp only [Bool.and_eq_true, beq_iff_eq] at hmine
    exact huser hmine.1.2

/-- The word of a purchase is taken for a row: none newer was, and it takes no paid row back to
waiting. -/
def Heard (purchase : ProviderPurchase) (statedAt : Option ℕ) (row : Subscription) : Prop :=
  orderly statedAt row = true ∧ ¬(statusOf purchase = .pending ∧ row.status ≠ .pending)

/-- A row may follow what was bought: it is the product's, or its account has no other row of it. -/
def MayFollow (t : Table Subscription) (integration : Integration) (product : ExternalProduct)
    (row : Subscription) : Prop :=
  row.externalProductId = some product.id ∨
    ∀ r ∈ t, r.id ≠ row.id → ¬Holding row.userId integration.id product.id r

/-- A row of the transaction is answered for. The account's, as the session has it, is still the
account's, and where the word is taken for it may follow what was bought; another one's is no
longer the one the session had, or the account may take it over. What the session has to write is
taken, but for what it drops of the row where it reads it again. -/
def Answers (integration : Integration) (user : User) (product : ExternalProduct)
    (purchase : ProviderPurchase) (statedAt : Option ℕ) (m : Memory) (t : Table Subscription)
    (row : Subscription) : Prop :=
  if (copyOf m row).userId = user.id then
    row.userId = user.id ∧ (Heard purchase statedAt row → MayFollow t integration product row) ∧
      (flushedInto (if orderly statedAt row then m.load row else m) t).isSome = true
  else if row.userId ≠ (copyOf m row).userId then (flushedInto (m.load row) t).isSome = true
  else MayTake t user row ∧ (flushedInto m t).isSome = true

/-- Where the session has the row as the account's, it is settled. -/
theorem answering_mine (hrow : v.subscriptions.get row.id = some row)
    (hmine : (copyOf m row).userId = user.id) :
    ∃ m', Reading m row m' ∧ answering user row.id m b v = .done v (.ok (.settled, m')) := by
  obtain ⟨m', hreading, hread⟩ := subscriptionOf_done (m := m) (b := b) hrow
  refine ⟨m', hreading, ?_⟩
  unfold answering
  rw [bind_ok hread, if_pos hmine]
  rfl

section Moving
variable (hrow : v.subscriptions.get row.id = some row) (hother : (copyOf m row).userId ≠ user.id)
include hrow hother

/-- Where it has it as another one's, the row is moved. -/
theorem answering_moves : ∃ m', Reading m row m' ∧ answering user row.id m b v = (do
    let moved ← moveRow row.id (·.userId == (copyOf m row).userId)
      (fun r => { r with userId := user.id })
    pure (.handed row.id (copyOf m row) moved) : Db Door) m' b v := by
  obtain ⟨m₁, hreading, hread⟩ := subscriptionOf_done (m := m) (b := b) hrow
  unfold answering
  refine ⟨m₁, hreading, ?_⟩
  rw [bind_ok hread, if_neg hother, bind_ok (subscriptionOf_loaded hreading.find)]

/-- A row that is no longer the one's the session had is read again. -/
theorem answering_passed (hpassed : row.userId ≠ (copyOf m row).userId) : ∃ m',
    answering user row.id m b v = .done v (.ok (.handed row.id (copyOf m row) false, m')) ∧
      m'.pending = (m.load row).pending := by
  obtain ⟨m', hreading, hmoves⟩ := answering_moves (b := b) hrow hother
  have hmove := moveRow_eq (m := m') (b := b) (·.userId == (copyOf m row).userId)
    (fun r => { r with userId := user.id }) hrow
  rw [if_neg (by simpa using hpassed)] at hmove
  refine ⟨_, hmoves.trans (bind_ok hmove), (Memory.pending_load row).trans ?_⟩
  exact (Memory.pendingBut_sync _ _ (by exact fun _ => ⟨rfl, rfl⟩)).trans
    (hreading.but.trans (Memory.pending_load row).symm)

theorem answering_taken (hstill : row.userId = (copyOf m row).userId)
    (htake : MayTake v.subscriptions user row) : ∃ t m' copy,
    answering user row.id m b v =
        .done { v with subscriptions := t } (.ok (.handed row.id (copyOf m row) true, m')) ∧
      rowNames t = rowNames v.subscriptions ∧ m'.pending = m.pending ∧ m'.find row.id = some copy := by
  obtain ⟨m', hreading, hmoves⟩ := answering_moves (b := b) hrow hother
  have hmove := moveRow_eq (m := m') (b := b) (·.userId == (copyOf m row).userId)
    (fun r => { r with userId := user.id }) hrow
  obtain ⟨t, ht⟩ := Option.isSome_iff_exists.mp ((alter_taken user hrow).mpr htake)
  rw [if_pos (beq_iff_eq.mpr hstill), ht] at hmove
  exact ⟨t, _, _, hmoves.trans (bind_ok hmove), rowNames_kept (by exact fun _ => ⟨rfl, rfl, rfl⟩) ht,
    (Memory.pending_sync _ (by exact fun _ => ⟨rfl, rfl⟩)).trans hreading.pending,
    find_sync (by exact fun _ => rfl) hreading.find⟩

/-- A row the account may not take over is refused by the database. -/
theorem answering_collides (hstill : row.userId = (copyOf m row).userId)
    (htake : ¬MayTake v.subscriptions user row) :
    answering user row.id m b v = .done v (.error .integrity) := by
  obtain ⟨m', -, hmoves⟩ := answering_moves (b := b) hrow hother
  have hmove := moveRow_eq (m := m') (b := b) (·.userId == (copyOf m row).userId)
    (fun r => { r with userId := user.id }) hrow
  have halter := mt (alter_taken user hrow).mp htake
  rw [if_pos (beq_iff_eq.mpr hstill), Option.not_isSome_iff_eq_none.mp halter] at hmove
  rw [hmoves, bind_error hmove]

end Moving

/-- A row may follow the purchase exactly where the database lets it. -/
theorem alter_followed (hrow : v.subscriptions.get row.id = some row)
    (hi : row.integrationId = some integration.id) :
    (v.subscriptions.alter (·.id == row.id)
      (fun r => { r with externalProductId := some product.id, planId := product.planId })).isSome = true ↔
      ∀ r ∈ v.subscriptions, r.id ≠ row.id → ¬Holding row.userId integration.id product.id r := by
  have hone := Table.alter_one_isSome (f := fun r : Subscription =>
    { r with externalProductId := some product.id, planId := product.planId }) hrow fun _ => rfl
  refine hone.trans ?_
  constructor
  · intro h r hr hne hheld
    exact h r hr hne _ (product_mem_keys.mpr hheld) (product_mem_keys.mpr ⟨hi, rfl, rfl⟩)
  · intro h r hr hne k hk hk'
    cases k with
    | external integrationId transaction =>
      have hrow' := external_mem_keys.mp hk'
      have hmine : .external integrationId transaction ∈ row.keys := external_mem_keys.mpr hrow'
      exact hne (congrArg (·.id) (Table.eq_of_key hr (Table.mem_of_get hrow) hk hmine))
    | product userId integrationId productId =>
      obtain ⟨hi', hu, hp⟩ := product_mem_keys.mp hk'
      obtain rfl : row.userId = userId := hu
      obtain rfl : integration.id = integrationId := Option.some.inj (hi.symm.trans hi')
      obtain rfl : product.id = productId := Option.some.inj hp
      exact h r hr hne (product_mem_keys.mp hk)

end
end FastKit
