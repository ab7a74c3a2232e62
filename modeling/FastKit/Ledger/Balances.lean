import FastKit.Services.Credits
import Mathlib.Algebra.BigOperators.Group.List.Basic

/-! # The ledger and the balances

What an account holds of a currency, the entries that moved it, and what ties the two
together. A segment of a movement leaves both alone or writes one entry with the balance
it leaves.
-/

namespace FastKit
open Transaction

/-- What an account holds of a currency, which is nothing where it has no row of it. -/
def amountOf (userId currencyId : ℕ) (s : Store) : ℤ :=
  ((s.balances.find (heldBy userId currencyId)).map UserBalance.amount).getD 0

/-- The entries of an account in a currency, in the order they were written. -/
def entriesOf (userId currencyId : ℕ) (s : Store) : List CreditTransaction :=
  s.transactions.select (fun e => e.userId == userId && e.currencyId == currencyId)

/-- The balance of every account in every currency is the sum of its entries, and so is
what each entry says it left, up to that entry and within what a balance may be. -/
structure Balanced (s : Store) : Prop where
  sum : ∀ userId currencyId, amountOf userId currencyId s =
    ((entriesOf userId currencyId s).map CreditTransaction.amount).sum
  running : ∀ userId currencyId before e rest, entriesOf userId currencyId s = before ++ e :: rest →
    e.balanceAfter = ((before ++ [e]).map CreditTransaction.amount).sum ∧
      0 ≤ e.balanceAfter ∧ e.balanceAfter ≤ bigIntegerMax

/-- Neither the entries nor what anybody holds moved. -/
structure Rests (s t : Store) : Prop where
  entries : t.transactions = s.transactions
  amounts : ∀ userId currencyId, amountOf userId currencyId t = amountOf userId currencyId s

/-- The entry was written last, with what it leaves of what its account held, under a key
nothing had. -/
structure Moved (e : CreditTransaction) (s t : Store) : Prop where
  entries : t.transactions.rows = s.transactions.rows ++ [e]
  fresh : ∀ e' ∈ s.transactions, e'.idempotencyKey ≠ e.idempotencyKey
  after : e.balanceAfter = amountOf e.userId e.currencyId s + e.amount
  range : 0 ≤ e.balanceAfter ∧ e.balanceAfter ≤ bigIntegerMax
  amount : amountOf e.userId e.currencyId t = e.balanceAfter
  others : ∀ userId currencyId, (e.userId, e.currencyId) ≠ (userId, currencyId) →
    amountOf userId currencyId t = amountOf userId currencyId s

variable {s t : Store} {userId currencyId : ℕ} {e : CreditTransaction}

theorem Rests.entriesOf (h : Rests s t) : entriesOf userId currencyId t = entriesOf userId currencyId s := by
  unfold FastKit.entriesOf
  rw [h.entries]

theorem Moved.entriesOf (h : Moved e s t) : entriesOf userId currencyId t =
    entriesOf userId currencyId s ++ if (e.userId, e.currencyId) = (userId, currencyId)
      then [e] else [] := by
  unfold FastKit.entriesOf Table.select
  rw [h.entries, List.filter_append, List.filter_cons, List.filter_nil]
  simp only [Bool.and_eq_true, beq_iff_eq, Prod.mk.injEq]

theorem Moved.mem (h : Moved e s t) : e ∈ t.transactions := by
  rw [← Table.mem_rows, h.entries]
  exact List.mem_append_right _ (List.mem_singleton.mpr rfl)

theorem Moved.kept (h : Moved e s t) {e' : CreditTransaction} (he : e' ∈ s.transactions) :
    e' ∈ t.transactions := by
  rw [← Table.mem_rows, h.entries]
  exact List.mem_append_left _ he

theorem Rests.kept (h : Rests s t) {e' : CreditTransaction} (he : e' ∈ s.transactions) :
    e' ∈ t.transactions := h.entries ▸ he

theorem Rests.balanced (h : Rests s t) (hs : Balanced s) : Balanced t := by
  constructor
  · intro userId currencyId
    rw [h.amounts, h.entriesOf]
    exact hs.sum userId currencyId
  · intro userId currencyId before e rest heq
    rw [h.entriesOf] at heq
    exact hs.running userId currencyId before e rest heq

/-- A movement keeps the balances explained: the new entry is the last of its account, and
every other one stands where it stood. -/
theorem Moved.balanced (h : Moved e s t) (hs : Balanced s) : Balanced t := by
  constructor
  · intro userId currencyId
    rw [h.entriesOf]
    by_cases hp : (e.userId, e.currencyId) = (userId, currencyId)
    · obtain ⟨rfl, rfl⟩ := Prod.mk.inj hp
      rw [if_pos rfl, List.map_append, List.sum_append, ← hs.sum, h.amount, h.after]
      simp
    · rw [if_neg hp, List.append_nil, h.others _ _ hp]
      exact hs.sum userId currencyId
  · intro userId currencyId before e' rest heq
    rw [h.entriesOf] at heq
    by_cases hp : (e.userId, e.currencyId) = (userId, currencyId)
    · obtain ⟨rfl, rfl⟩ := Prod.mk.inj hp
      rw [if_pos rfl] at heq
      rcases List.eq_nil_or_concat rest with rfl | ⟨rest', last, rfl⟩
      · -- the entry the movement wrote
        obtain ⟨hbefore, hlast⟩ := List.append_inj' heq rfl
        obtain rfl : e = e' := List.head_eq_of_cons_eq hlast
        rw [← hbefore, List.map_append, List.sum_append, ← hs.sum, h.after]
        exact ⟨by simp, by rw [← h.after]; exact h.range⟩
      · have heq' : FastKit.entriesOf e.userId e.currencyId s ++ [e] =
            (before ++ e' :: rest') ++ [last] := by simpa using heq
        exact hs.running _ _ before e' rest' (List.append_inj' heq' rfl).1
    · rw [if_neg hp, List.append_nil] at heq
      exact hs.running userId currencyId before e' rest heq

/-- The store with the row of an account has a row of it, which says what it holds. -/
theorem find_holding (userId currencyId : ℕ) (s : Store) :
    ∃ row, (holding userId currencyId s).balances.find
        (heldBy userId currencyId) = some row ∧
      row.userId = userId ∧ row.currencyId = currencyId ∧
      row.amount = amountOf userId currencyId s := by
  cases hf : s.balances.find (heldBy userId currencyId) with
  | some row =>
    have hrow := Table.find_holds hf
    rw [heldBy, Bool.and_eq_true, beq_iff_eq, beq_iff_eq] at hrow
    refine ⟨row, ?_, hrow.1, hrow.2, ?_⟩
    · simp [holding, hf]
    · simp [amountOf, hf]
  | none =>
    cases hi : s.balances.insert (emptyBalance userId currencyId) with
    | none =>
      -- the row is refused only where the account has one
      obtain ⟨row, hrow, hapart⟩ := Table.insert_eq_none hi rfl
      have hnot := Table.find_none hf hrow
      refine absurd ⟨Nat.ne_of_lt (s.balances.fresh row hrow), ?_⟩ hapart
      intro key hkey hkey'
      obtain rfl := List.mem_singleton.mp hkey
      obtain ⟨hu, hc⟩ := Prod.mk.inj (List.mem_singleton.mp hkey')
      rw [heldBy, hu, hc] at hnot
      simp [emptyBalance] at hnot
    | some inserted =>
      obtain ⟨row, balances⟩ := inserted
      obtain rfl := (Table.insert_eq_some hi).1
      refine ⟨emptyBalance userId currencyId s.balances.next, ?_, rfl, rfl, ?_⟩
      · simp only [holding, hf, hi, Table.find_insert hi]
        simp [emptyBalance, heldBy]
      · simp [amountOf, hf, emptyBalance]

/-- Opening the row of an account moves nothing. -/
theorem rests_holding (userId currencyId : ℕ) (s : Store) : Rests s (holding userId currencyId s) := by
  cases hf : s.balances.find (heldBy userId currencyId) with
  | some row =>
    simp only [holding, hf]
    exact ⟨rfl, fun _ _ => rfl⟩
  | none =>
    simp only [holding, hf]
    cases hi : s.balances.insert (emptyBalance userId currencyId) with
    | none => exact ⟨rfl, fun _ _ => rfl⟩
    | some inserted =>
      obtain ⟨row, balances⟩ := inserted
      obtain rfl := (Table.insert_eq_some hi).1
      refine ⟨rfl, fun user currency => ?_⟩
      simp only [amountOf, Table.find_insert hi]
      cases s.balances.find (heldBy user currency) with
      | some row => rfl
      | none =>
        simp only [Option.none_or]
        split_ifs <;> rfl

/-- The balance of an account set to an amount, and nobody else's. -/
theorem amountOf_modify {f : UserBalance → UserBalance} (still : Still f) (amount : ℤ)
    (hf : ∀ b, (f b).userId = b.userId ∧ (f b).currencyId = b.currencyId ∧ (f b).amount = amount)
    {row : UserBalance} (hrow : s.balances.find
      (heldBy userId currencyId) = some row) :
    let after := s.balances.modify
      (heldBy userId currencyId) f still
    amountOf userId currencyId { s with balances := after } = amount ∧
      ∀ user currency, (userId, currencyId) ≠ (user, currency) →
        amountOf user currency { s with balances := after } = amountOf user currency s := by
  have hkeep : ∀ user currency b, heldBy user currency (f b) = heldBy user currency b := by
    intro user currency b
    rw [heldBy, heldBy, (hf b).1, (hf b).2.1]
  constructor
  · simp [amountOf, Table.find_modify still (hkeep userId currencyId), hrow, Table.find_holds hrow,
      (hf row).2.2]
  · intro user currency hne
    simp only [amountOf, Table.find_modify still (hkeep user currency)]
    cases hother : s.balances.find (heldBy user currency) with
    | none => rfl
    | some other =>
      have hnot : heldBy userId currencyId other = false := by
        have hu := Table.find_holds hother
        rw [heldBy, Bool.and_eq_true, beq_iff_eq, beq_iff_eq] at hu
        rw [heldBy, hu.1, hu.2]
        by_contra hsame
        rw [Bool.not_eq_false, Bool.and_eq_true, beq_iff_eq, beq_iff_eq] at hsame
        exact hne (by rw [hsame.1, hsame.2])
      simp [hnot]

end FastKit
