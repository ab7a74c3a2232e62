import FastKit.Runs

/-! # Purchases move forward

A purchase never goes back to waiting and never out of a refund, and the word that it is
paid is written with the product: whoever finds the one finds the other. This holds of a
store nothing was sold in, and every change of a service keeps it.
-/

namespace FastKit
open Transaction

/-- What a store says of the purchases that were paid: when that was, that the account holds
the product, and that nothing was handed over or credited for a purchase that was not. -/
structure Bills (s : Store) : Prop where
  recorded : ∀ p ∈ s.purchases, p.status = .paid → p.paidAt.isSome = true
  held : ∀ p ∈ s.purchases, p.paidAt.isSome = true → Holds s.userProducts p
  handed : ∀ u ∈ s.userProducts, ∀ id, u.purchaseId = some id → ∃ p ∈ s.purchases,
    p.id = id ∧ p.userId = u.userId ∧ p.productId = u.productId ∧ p.paidAt.isSome = true
  credited : ∀ e ∈ s.transactions, Bought s e.idempotencyKey

variable {W : Scope} {s t : Store}

theorem Holds.mono {u u' : Table UserProduct} {p p' : Purchase} (h : Holds u p)
    (hu : ∀ held ∈ u, held ∈ u') (ho : p'.order = p.order) : Holds u' p' := by
  obtain ⟨held, hh, huser, hproduct⟩ := h
  have huser' : p'.userId = p.userId := congrArg (·.2.1) ho
  have hproduct' : p'.productId = p.productId := congrArg (·.2.2.1) ho
  exact ⟨held, hu held hh, huser.trans huser'.symm, hproduct.trans hproduct'.symm⟩

/-- A purchase is one that was there, a new one that waits, or one a notice just moved. -/
theorem Change.purchase_cases (c : Change W s t) {p : Purchase} (hp : p ∈ t.purchases) :
    p ∈ s.purchases ∨ (p.status = .pending ∧ p.paidAt = none) ∨
      ∃ p₀ ∈ s.purchases, ∃ status externalId moment, stands p₀.status status = false ∧
        p = settlement status externalId moment p₀ ∧ (status = .paid → Holds t.userProducts p₀) := by
  cases c with
  | aside clock catalog benefits grants transactions userProducts purchases =>
    exact .inl (purchases ▸ hp)
  | purchase inserted new =>
    rcases (Table.mem_insert inserted).mp hp with hp | rfl
    · exact .inl hp
    · exact .inr (.inl new)
  | @settled q status externalId moment _ _ found moves written products held =>
    obtain ⟨p₀, hp₀, rfl⟩ := (Table.mem_alter written).mp hp
    by_cases hid : p₀.id == q.id
    · obtain rfl : p₀ = q := Table.eq_of_id hp₀ found (beq_iff_eq.mp hid)
      rw [if_pos hid]
      exact .inr (.inr ⟨p₀, hp₀, status, externalId, moment, moves, rfl, held⟩)
    · rw [if_neg hid]
      exact .inl hp₀
  | schedule | snapshot | grant | mark | movement | product | event | received | stamp | edit | tick =>
    exact .inl hp

/-- A product handed over for a purchase is one that was there, or the one the word that the
purchase is paid brought. -/
theorem Change.bought_cases (c : Change W s t) {u : UserProduct} (hu : u ∈ t.userProducts)
    {id : ℕ} (hid : u.purchaseId = some id) : u ∈ s.userProducts ∨ ∃ p ∈ t.purchases,
      p.id = id ∧ p.userId = u.userId ∧ p.productId = u.productId ∧ p.paidAt.isSome = true := by
  cases c with
  | aside clock catalog benefits grants transactions userProducts => exact .inl (userProducts ▸ hu)
  | product inserted handed delivers given =>
    rcases (Table.mem_insert inserted).mp hu with hu | rfl
    · exact .inl hu
    · rw [given] at hid
      cases hid
  | @settled q status externalId moment _ _ found moves written products held =>
    rcases products with rfl | ⟨hpaid, make, new, inserted, hq, -, huser, hproduct⟩
    · exact .inl hu
    · rcases (Table.mem_insert inserted).mp hu with hu | rfl
      · exact .inl hu
      · refine .inr ⟨_, (Table.mem_alter written).mpr ⟨q, found, rfl⟩, ?_⟩
        rw [if_pos (beq_self_eq_true _)]
        refine ⟨Option.some.inj (hq.symm.trans hid), huser.symm, hproduct.symm, ?_⟩
        rw [settlement, if_pos hpaid]
        rfl
  | schedule | snapshot | grant | mark | movement | purchase | event | received | stamp | edit |
    tick => exact .inl hu

theorem Change.credited_cases (c : Change W s t) {e : CreditTransaction}
    (he : e ∈ t.transactions) : e ∈ s.transactions ∨ Bought s e.idempotencyKey := by
  cases c with
  | aside clock catalog benefits grants transactions => exact .inl (transactions ▸ he)
  | movement inserted paid delivers bought =>
    rcases (Table.mem_insert inserted).mp he with he | rfl
    · exact .inl he
    · exact .inr bought
  | schedule | snapshot | grant | mark | product | purchase | settled | event | received |
    stamp | edit | tick => exact .inl he

theorem Bills.change (h : Bills s) (c : Change W s t) : Bills t := by
  have kept : ∀ held ∈ s.userProducts, held ∈ t.userProducts := fun _ => c.userProduct_kept
  refine ⟨?_, ?_, ?_, ?_⟩
  · intro p hp hpaid
    rcases c.purchase_cases hp with hp | ⟨hnew, -⟩ | ⟨p₀, hp₀, status, _, _, hs, rfl, -⟩
    · exact h.recorded p hp hpaid
    · rw [hnew] at hpaid
      cases hpaid
    · obtain rfl : status = .paid := hpaid
      rfl
  · intro p hp hpaid
    rcases c.purchase_cases hp with hp | ⟨-, hnone⟩ | ⟨p₀, hp₀, status, _, _, hs, rfl, held⟩
    · exact (h.held p hp hpaid).mono kept rfl
    · rw [hnone] at hpaid
      cases hpaid
    · by_cases hstatus : status = .paid
      · exact (held hstatus).mono (fun _ hh => hh) rfl
      · rw [settlement, if_neg hstatus] at hpaid
        exact (h.held p₀ hp₀ hpaid).mono kept rfl
  · intro u hu id hid
    rcases c.bought_cases hu hid with hu | hnew
    · obtain ⟨p, hp, hpid, huser, hproduct, hpaid⟩ := h.handed u hu id hid
      obtain ⟨p', hp', hf⟩ := c.purchase_kept hp
      exact ⟨p', hp', (congrArg (·.1) hf.order).trans hpid, (congrArg (·.2.1) hf.order).trans huser,
        (congrArg (·.2.2.1) hf.order).trans hproduct, hf.paid hpaid⟩
    · exact hnew
  · intro e he
    rcases c.credited_cases he with he | hb
    · exact (h.credited e he).path (.single c)
    · exact hb.path (.single c)

theorem Bills.path (h : Bills s) (c : Path W s t) : Bills t := by
  induction c with
  | refl => exact h
  | tail _ c ih => exact ih.change c

/-- A purchase hands one product over. -/
theorem Bills.handed_once (h : Bills s) {u u' : UserProduct} (hu : u ∈ s.userProducts)
    (hu' : u' ∈ s.userProducts) {id : ℕ} (hid : u.purchaseId = some id)
    (hid' : u'.purchaseId = some id) : u = u' := by
  obtain ⟨p, hp, hpid, huser, hproduct, -⟩ := h.handed u hu id hid
  obtain ⟨p', hp', hpid', huser', hproduct', -⟩ := h.handed u' hu' id hid'
  obtain rfl : p = p' := Table.eq_of_id hp hp' (hpid.trans hpid'.symm)
  refine Table.eq_of_key hu hu' (List.mem_singleton.mpr rfl) (List.mem_singleton.mpr ?_)
  rw [← huser, ← huser', ← hproduct, ← hproduct']

/-- A purchase credits its account by one movement. -/
theorem credited_purchase_once {e e' : CreditTransaction} (he : e ∈ s.transactions)
    (he' : e' ∈ s.transactions) {reference : ℕ} (hk : e.idempotencyKey = .purchase reference)
    (hk' : e'.idempotencyKey = .purchase reference) : e = e' := by
  refine Table.eq_of_key he he' (List.mem_singleton.mpr rfl) (List.mem_singleton.mpr ?_)
  rw [hk, hk']

/-- In every run, wherever it goes on to from a store it reached: every purchase has moved
forward, the product of one that was paid is held since the commit that says so, and a
purchase hands over one product and makes one movement, once it was paid. -/
theorem purchases_forward {calls : List Call} {s : Store} (hs : Bills s)
    {trace rest : List (Turn Store)} {q r : Sessions}
    (run : Pool.Run (fun _ _ _ => True) (sessions calls s) trace q)
    (later : Pool.Run (fun _ _ _ => True) q rest r) :
    (∀ p ∈ q.store.purchases, ∃ p' ∈ r.store.purchases, Forward p p') ∧ Bills r.store ∧
      (∀ u ∈ r.store.userProducts, ∀ u' ∈ r.store.userProducts, ∀ id,
        u.purchaseId = some id → u'.purchaseId = some id → u = u') ∧
      (∀ e ∈ r.store.transactions, ∀ e' ∈ r.store.transactions, ∀ reference,
        e.idempotencyKey = .purchase reference → e'.idempotencyKey = .purchase reference → e = e') := by
  have c : Path .any q.store r.store := path_run run later
  have hb : Bills r.store :=
    run_preserves (fun _ _ _ _ c h => h.path c) (run.append later) hs
  refine ⟨fun p hp => c.purchase_kept hp, hb, ?_, ?_⟩
  · exact fun u hu u' hu' id hid hid' => hb.handed_once hu hu' hid hid'
  · exact fun e he e' he' reference hk hk' => credited_purchase_once he he' hk hk'

/-- A pack of credits is paid by one session while another redelivers the word, and then
refunded for good. -/
theorem purchases_forward_refund : ∃ q r : Sessions, (∃ p ∈ q.store.purchases, p.status = .paid) ∧
    (∀ p ∈ r.store.purchases, p.status = .refunded) ∧
    (∀ p ∈ q.store.purchases, ∃ p' ∈ r.store.purchases, Forward p p') ∧ Bills r.store := by
  obtain ⟨trace, q, run, hq⟩ := Pool.exists_run (fun _ _ _ => True)
    (sessions [.forProduct 1 9 5 77 true,
      .settlePurchase 0 [(.paid, some 600), (.refunded, none), (.paid, none)],
      .settlePurchase 0 [(.paid, some 600)]]
      (Shop.new { Shop.catalog [] with products := [⟨9, "pack", 20, some 7⟩] }))
    [0, 0, 0, 1, 2, 1]
    (fun q => (∃ p ∈ q.store.purchases, p.status = .paid) ∧
      (q.turns (fun _ _ _ => True) [2, 1, 1, 1, 1, 1]).any
        (fun r => decide (∀ p ∈ r.store.purchases, p.status = .refunded)) = true)
    (by decide +kernel)
  obtain ⟨rest, r, later, hr⟩ := Pool.exists_run _ q _ _ hq.2
  have hs : Bills (Shop.new { Shop.catalog [] with products := [⟨9, "pack", 20, some 7⟩] }) :=
    ⟨by simp [Shop.new], by simp [Shop.new], by simp [Shop.new], by simp [Shop.new]⟩
  obtain ⟨hf, hb, -⟩ := purchases_forward hs run later
  exact ⟨q, r, hq.1, hr, hf, hb⟩

end FastKit
