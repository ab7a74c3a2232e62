import FastKit.Transaction.Steps
import FastKit.Transaction.Table

/-! # Rows taken for a while

A session takes a row by stamping it, and the row is the session's until a window after the
stamp is over. Where every step leaves the rows of others alone and no session goes on with a
row past its window, a row in hand is as it was taken, and two sessions that took one row took
it more than a window apart.
-/

namespace FastKit.Transaction

/-- A row a session took, and when. -/
structure Lease where
  row : ℕ
  moment : ℕ
  deriving DecidableEq

/-- Where a store keeps the rows that are taken, how a row shows it, and for how long. -/
structure Leasing (μ σ α : Type) {κ : Type} [Keyed α κ] where
  table : σ → Table α
  clock : σ → ℕ
  held : μ → Option Lease
  busy : α → Bool
  stamp : α → ℕ
  window : ℕ

namespace Leasing
variable {μ σ α κ ε β : Type} [Keyed α κ] (L : Leasing μ σ α)

/-- A row nobody has, or had for longer than the window. -/
def Free (s : σ) (r : α) : Prop := L.busy r = false ∨ L.stamp r + L.window < L.clock s

/-- The row of a lease is as it was taken. -/
def InHand (s : σ) (l : Lease) : Prop :=
  ∃ r ∈ L.table s, Keyed.id r = l.row ∧ L.busy r = true ∧ L.stamp r = l.moment

def Lapsed (s : σ) (l : Lease) : Prop := l.moment + L.window < L.clock s

/-- Two leases of one row are more than a window apart. -/
def Distant (l l' : Lease) : Prop :=
  l.row = l'.row → l.moment + L.window < l'.moment ∨ l'.moment + L.window < l.moment

/-- A step that writes a row in somebody's hands only where the hands are its own or the window
is over, and takes only what is free. -/
structure Respects (m : μ) (s : σ) (m' : μ) (t : σ) : Prop where
  clock : L.clock s ≤ L.clock t
  untouched : ∀ r ∈ L.table s, L.busy r = true →
    r ∈ L.table t ∨ (∃ l ∈ L.held m, l.row = Keyed.id r) ∨ L.stamp r + L.window < L.clock s
  takes : ∀ l ∈ L.held m', (l ∈ L.held m ∧ (L.InHand s l → L.InHand t l)) ∨
    (l.moment = L.clock s ∧ L.InHand t l ∧ ∀ r ∈ L.table s, Keyed.id r = l.row → L.Free s r)

/-- What the sessions of a pool have in hand. -/
structure Orderly (q : Pool μ σ ε β) : Prop where
  held : ∀ i m, q.memory i = some m → ∀ l ∈ L.held m, L.InHand q.store l ∨ L.Lapsed q.store l
  distant : ∀ i j, i ≠ j → ∀ m m', q.memory i = some m → q.memory j = some m' →
    ∀ l ∈ L.held m, ∀ l' ∈ L.held m', L.Distant l l'

/-- The session that takes the turn is not past the window of what it has in hand. -/
def InTime (q : Pool μ σ ε β) (i : ℕ) (_ : Pool μ σ ε β) : Prop :=
  ∀ m ∈ q.memory i, ∀ l ∈ L.held m, L.clock q.store ≤ l.moment + L.window

instance (q : Pool μ σ ε β) (i : ℕ) (r : Pool μ σ ε β) : Decidable (L.InTime q i r) := by
  unfold InTime
  infer_instance

variable {L} {m m' : μ} {s t : σ} {l l' : Lease} {q r : Pool μ σ ε β} {i : ℕ}

theorem Distant.symm (h : L.Distant l l') : L.Distant l' l := fun hrow => (h hrow.symm).symm

theorem Lapsed.later (h : L.Lapsed s l) (hst : L.clock s ≤ L.clock t) : L.Lapsed t l :=
  Nat.lt_of_lt_of_le h hst

/-- Within its window, a session has what it took. -/
theorem Orderly.inHand (h : L.Orderly q) (ok : L.InTime q i r) (hm : q.memory i = some m)
    (hl : l ∈ L.held m) : L.InHand q.store l := by
  have hclock : L.clock q.store ≤ l.moment + L.window := ok m hm l hl
  refine (h.held i m hm l hl).resolve_right fun hlapsed => ?_
  exact absurd hlapsed (Nat.not_lt.mpr hclock)

/-- The row of a lease that is in hand. -/
theorem InHand.found (h : L.InHand s l) {row : α} (hrow : row ∈ L.table s)
    (hid : Keyed.id row = l.row) : L.busy row = true ∧ L.stamp row = l.moment := by
  obtain ⟨row₀, hrow₀, hid₀, hbusy, hstamp⟩ := h
  obtain rfl : row₀ = row := Table.eq_of_id hrow₀ hrow (hid₀.trans hid.symm)
  exact ⟨hbusy, hstamp⟩

/-- What a session has in hand stays in its hand while another one takes a step in time. -/
theorem Respects.others (c : L.Respects m s m' t) (hin : ∀ l ∈ L.held m, L.InHand s l)
    (hd : ∀ l ∈ L.held m, L.Distant l' l) (h : L.InHand s l' ∨ L.Lapsed s l') :
    L.InHand t l' ∨ L.Lapsed t l' := by
  rcases h with ⟨row, hrow, hid, hbusy, hstamp⟩ | h
  · rcases c.untouched row hrow hbusy with hstays | ⟨l, hl, hown⟩ | hlapsed
    · exact .inl ⟨row, hstays, hid, hbusy, hstamp⟩
    · -- the step's own row was taken by both, and still is as each of them took it
      have hsame : l'.row = l.row := hid.symm.trans hown.symm
      have hown' := ((hin l hl).found hrow hown.symm).2
      have := hd l hl hsame
      omega
    · exact .inr (Nat.lt_of_lt_of_le (hstamp ▸ hlapsed) c.clock)
  · exact .inr (h.later c.clock)

/-- A turn in time keeps the pool in order. -/
theorem Orderly.turn {Step : μ → σ → μ → σ → Prop} {post : ℕ → μ → Except ε β → σ → σ → Prop}
    (h : L.Orderly q) (ok : L.InTime q i r) (turn : Pool.Stepped Step post q i r)
    (hStep : ∀ m s m' t, Step m s m' t → L.Respects m s m' t) : L.Orderly r := by
  obtain ⟨m, hm, ⟨view, result, hend, hsame, -⟩ | ⟨m', hm', step⟩⟩ := turn.step
  · have hback : ∀ j k, r.memory j = some k → q.memory j = some k := fun j k hj =>
      turn.memory_ended hend hj
    refine ⟨fun j k hj l hl => ?_, fun j k hjk mj mk hj hk => ?_⟩
    · rw [hsame]
      exact h.held j k (hback j k hj) l hl
    · exact h.distant j k hjk mj mk (hback j mj hj) (hback k mk hk)
  · have c := hStep _ _ _ _ step
    have hin : ∀ l ∈ L.held m, L.InHand q.store l := fun l hl => h.inHand ok hm hl
    have hkeep : ∀ j k, j ≠ i → r.memory j = some k → q.memory j = some k := fun j k hj hk =>
      (turn.memory_others hj).symm.trans hk
    -- what the session takes is more than a window after what another one has of it
    have hnew : ∀ j k, j ≠ i → q.memory j = some k → ∀ l ∈ L.held m', ∀ l' ∈ L.held k,
        L.Distant l l' := by
      intro j k hj hk l hl l' hl' hrow
      rcases c.takes l hl with ⟨hold, -⟩ | ⟨hmoment, -, hfree⟩
      · exact h.distant i j (Ne.symm hj) m k hm hk l hold l' hl' hrow
      · refine .inr ?_
        rcases h.held j k hk l' hl' with ⟨row, hmem, hid, hbusy, hstamp⟩ | hlapsed
        · rcases hfree row hmem (hid.trans hrow.symm) with hidle | hlapsed
          · rw [hbusy] at hidle
            cases hidle
          · omega
        · exact hmoment ▸ hlapsed
    refine ⟨fun j k hk l hl => ?_, fun j k hjk mj mk hj hk l hl l' hl' => ?_⟩
    · by_cases hj : j = i
      · rw [hj, hm'] at hk
        obtain rfl := Option.some.inj hk
        rcases c.takes l hl with ⟨hold, hstays⟩ | ⟨-, htaken, -⟩
        · exact .inl (hstays (hin l hold))
        · exact .inl htaken
      · have hk' := hkeep j k hj hk
        exact c.others hin (fun l₀ hl₀ => h.distant j i hj k m hk' hm l hl l₀ hl₀)
          (h.held j k hk' l hl)
    · by_cases hji : j = i
      · have hki : k ≠ i := fun hki => hjk (hji.trans hki.symm)
        rw [hji, hm'] at hj
        obtain rfl := Option.some.inj hj
        exact hnew k mk hki (hkeep k mk hki hk) l hl l' hl'
      · have hj' := hkeep j mj hji hj
        by_cases hki : k = i
        · rw [hki, hm'] at hk
          obtain rfl := Option.some.inj hk
          exact (hnew j mj hji hj' l' hl' l hl).symm
        · exact h.distant j k hjk mj mk hj' (hkeep k mk hki hk) l hl l' hl'

/-- Sessions that have nothing in hand are in order. -/
theorem orderly_idle (h : ∀ i m, q.memory i = some m → L.held m = none) : L.Orderly q := by
  refine ⟨fun i m hm l hl => ?_, fun i _ _ m _ hm _ l hl => ?_⟩
  · rw [h i m hm] at hl
    cases hl
  · rw [h i m hm] at hl
    cases hl

end Leasing
end FastKit.Transaction
