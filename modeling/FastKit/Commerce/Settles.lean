import FastKit.Reconciliation.Keeps

/-! # Settling keeps to the changes

A notice moves a purchase forward, and the word that it is paid hands the product over in
the same segment.
-/

namespace FastKit
open Transaction Transaction.Program

/-- What is not made for a grant needs none. -/
theorem paid_none {s : Store} (key : IdempotencyKey) : Paid s none key := by
  intro id hid
  cases hid

theorem delivers_none {W : Scope} : Delivers W none := by
  intro id hid
  cases hid

namespace Setting
variable {α : Type} {S : Setting} {g m : Memory} {b v : Store}

theorem purchaseOf_reads (id : ℕ) (h : S.Inside g m b v) :
    (purchaseOf id).Meets S.contract
      (S.Reads g b v fun p m' => p ∈ m'.purchases ∧ p.id = id) g m b v := by
  unfold purchaseOf
  simp only [meets_bind, meets_remembered, ending_ok]
  cases hf : m.purchases.find? (·.id == id) with
  | some p =>
    exact ⟨rfl, rfl, .refl, h, rfl, List.mem_of_find?_eq_some hf, by simpa using List.find?_some hf⟩
  | none =>
    simp only [meets_bind, meets_query, ending_ok]
    cases hg : v.purchases.get id with
    | none => exact h.fail (S.faults _ (by simp))
    | some p =>
      exact ⟨rfl, rfl, .refl, h.keepPurchase (Table.mem_of_get hg), rfl, List.mem_cons_self ..,
        Table.id_of_get hg⟩

theorem refreshPurchase_keeps (id : ℕ) : S.Keeps (refreshPurchase id) := by
  intro g m b v h
  refine meets_bind_reads (query_reads _ h) kept_error fun o m h ho => ?_
  refine meets_bind_reads (require_reads (by simp) o h) kept_error fun p m h hp => ?_
  obtain ⟨rfl, -⟩ := hp
  exact h.keepPurchase (Table.mem_of_get ho.1.symm)

/-- The product of a purchase that is paid, handed over in the segment that says so. -/
theorem grantPaid_keeps {p : Purchase} {status : PurchaseStatus} {externalId : Option ℕ}
    {moment : ℕ} {t : Table Purchase} (h : S.Inside g m b v) (hp : p ∈ v.purchases)
    (hstands : stands p.status status = false) (hpaid : status = .paid)
    (ht : v.purchases.alter (·.id == p.id) (settlement status externalId moment) = some t) :
    (commerceGrant p.userId p.productId (.purchase p.reference) none (some p.id) none).Meets
      S.contract S.Kept g m b { v with purchases := t } := by
  simp only [commerceGrant, now, meets_bind, meets_query, ending_ok]
  refine insertOrRead_meets ?_ ?_ ?_ (h.fail (S.faults _ (by simp)))
  · -- the account owns the product already
    intro held hf
    have hholds := Table.find_holds hf
    simp only [Bool.and_eq_true, beq_iff_eq] at hholds
    exact h.change (.settled hp hstands ht (.inl rfl) fun _ => ⟨held, Table.mem_of_find hf, hholds⟩)
  · intro _ subs held u hu
    have c : Change (S.scope g b) { v with subscriptions := subs }
        { v with subscriptions := subs, purchases := t, userProducts := u } := by
      obtain rfl := (Table.insert_eq_some hu).1
      refine .settled (u := u) hp hstands ht (.inr ⟨hpaid, _, _, hu, rfl, rfl, rfl, rfl⟩) fun _ => ?_
      exact ⟨_, (Table.mem_insert hu).mpr (.inr rfl), rfl, rfl⟩
    have hin := (h.flushed subs).change c
    have hbought : Bought { v with subscriptions := subs, purchases := t, userProducts := u }
        (.purchase p.reference) := by
      intro reference hr
      cases hr
      refine ⟨_, (Table.mem_alter ht).mpr ⟨p, hp, rfl⟩, ?_⟩
      simp [settlement, hpaid]
    simp only [ending_ok]
    refine (grantCredits_keeps hin ⟨paid_none _, delivers_none, hbought⟩ held).mono ?_
    rintro g' (e | ⟨a, m'⟩) b' v' hk
    · exact hk
    · exact hk.1
  · intro hnone subs
    simp only [ending_ok, meets_bind]
    rw [show ({ v with purchases := t, subscriptions := subs } : Store).userProducts.find _ = none
      from hnone]
    exact h.fail (S.faults _ (by simp))

theorem order_settlement (status : PurchaseStatus) (externalId : Option ℕ) (moment : ℕ)
    (p : Purchase) : (settlement status externalId moment p).order = p.order := rfl

theorem purchaseOf_keeps (id : ℕ) : S.Keeps (purchaseOf id) := fun _ _ _ _ h =>
  Within.kept (purchaseOf_reads id h)

/-- A notice moves the row it decided on, whose order the session knows. -/
theorem settlePurchase_keeps (id : ℕ) (status : PurchaseStatus) (externalId : Option ℕ)
    (again : ℕ) : S.Keeps (settlePurchase id status externalId again) := by
  induction again with
  | zero => exact keeps_raise (S.faults _ (by simp))
  | succ again ih =>
    intro g m b v h
    refine meets_bind_reads (purchaseOf_reads id h) kept_error fun purchase m h hp => ?_
    obtain ⟨hmem, hid⟩ := hp
    refine meets_ite.mpr ⟨fun _ => h, fun hstands => ?_⟩
    rw [Bool.not_eq_true] at hstands
    rw [meets_bind, meets_publish]
    refine ⟨m, S.guar h.shows h.path 0 S.prompt, S.waits h.shows, fun t ht => ?_⟩
    have hin := h.publish ht
    obtain ⟨row, hrow, horder⟩ := hin.orders purchase hmem
    refine meets_bind_reads (query_reads _ hin) kept_error fun moment m' h hn => ?_
    obtain ⟨-, rfl⟩ := hn
    rw [meets_bind, meets_remember, ending_ok]
    have h := h.syncPurchase id (order_settlement status externalId moment)
    refine meets_bind_reads (query_reads _ h) kept_error fun found m h hf => ?_
    obtain ⟨hf, rfl⟩ := hf
    refine meets_ite.mpr ⟨fun hsame => ?_, fun _ => ?_⟩
    · obtain ⟨row', hrow', hstatus⟩ := (Option.any_eq_true _ _).mp hsame
      have hid' : row.id = id := (congrArg (·.1) horder).trans hid
      obtain rfl : row' = row := by
        have hget : t.purchases.get row.id = some row := Table.get_of_mem hrow
        rw [hf, ← hid', hget] at hrow'
        exact (Option.some.inj hrow').symm
      rw [beq_iff_eq] at hstatus
      rw [← hstatus] at hstands
      have huser : row'.userId = purchase.userId := congrArg (·.2.1) horder
      have hproduct : row'.productId = purchase.productId := congrArg (·.2.2.1) horder
      have hreference : row'.reference = purchase.reference := congrArg (·.2.2.2) horder
      refine meets_bind_reads (query_reads _ h) kept_error fun o m h ho => ?_
      refine meets_bind_reads (require_reads (by simp) o h) kept_error fun u m h hu => ?_
      obtain ⟨rfl, -⟩ := hu
      have ht : t.purchases.alter (·.id == row'.id) (settlement status externalId moment) = some u := by
        rw [hid']
        exact ho.1.symm
      rw [meets_bind, meets_execute, ending_ok]
      have hrest : S.Keeps (do persist; purchaseOf id) :=
        Keeps.bind persist_keeps fun _ => purchaseOf_keeps id
      by_cases hpaid : status = .paid
      · rw [if_pos hpaid, ← huser, ← hproduct, ← hreference, ← hid']
        exact meets_bind_keeps (grantPaid_keeps h hrow hstands hpaid ht)
          fun _ g m b v h => hid' ▸ hrest g m b v h
      · rw [if_neg hpaid]
        exact hrest _ _ _ _ (h.change (.settled hrow hstands ht (.inl rfl)
          fun hp => absurd hp hpaid))
    · refine meets_bind_keeps (refreshPurchase_keeps id _ _ _ _ h) fun _ g m b v h => ?_
      exact ih g m b v h

theorem settleEachNotice_keeps (id : ℕ) (notices : List (PurchaseStatus × Option ℕ)) :
    S.Keeps (settleEachNotice id notices) := by
  induction notices with
  | nil => exact keeps_pure ()
  | cons notice rest ih => exact Keeps.bind (settlePurchase_keeps _ _ _ _) fun _ => ih

theorem openCheckout_keeps (userId productId : ℕ) (integrationId : Option ℕ) (reference : ℕ) :
    S.Keeps (openCheckout userId productId integrationId reference) := by
  refine Keeps.bind (keeps_query _) fun owned => keeps_ite (keeps_raise (S.faults _ (by simp))) ?_
  intro g m b v h
  refine meets_bind_reads (query_reads _ h) kept_error fun inserted m h hi => ?_
  obtain ⟨hi, -⟩ := hi
  split
  · rename_i purchase t
    have hnew := (Table.insert_eq_some hi.symm).1
    rw [meets_bind, meets_execute, ending_ok]
    have hin := h.change (.purchase hi.symm (by rw [hnew]; exact ⟨rfl, rfl⟩))
    rw [meets_bind, meets_remember, ending_ok]
    have hin := hin.keepPurchase ((Table.mem_insert hi.symm).mpr (.inr rfl))
    exact meets_bind_keeps (persist_keeps _ _ _ _ hin) fun _ g m b v h => h
  · refine meets_bind_keeps (c := rollback) h.expire fun _ g m b v h => ?_
    exact keeps_raise (S.faults _ (by simp)) g m b v h

theorem forProduct_keeps (userId productId integrationId reference : ℕ) (opened : Bool) :
    S.Keeps (forProduct userId productId integrationId reference opened) := by
  refine Keeps.bind (openCheckout_keeps _ _ _ _) fun purchase => ?_
  refine Keeps.bind keeps_publish fun _ => keeps_ite (keeps_pure ()) ?_
  refine Keeps.bind (settlePurchase_keeps _ _ _ _) fun _ => ?_
  exact keeps_raise (S.faults _ (by simp))

end Setting
end FastKit
