import FastKit.Relational.Owners

/-! # Owners by id

An assignment of owners to ids that each row agrees with, by its own column or by the row it belongs
through, is whom the rows belong to. So no key leads from one owner to another where none does in it.
-/

namespace FastKit.Relational
open Transaction

variable {ι κ δ : Type} {S : Schema ι κ} {O : Ownership S} {s t : Tables ι κ δ} {i : ι}
  {k : Key ι κ} {r p : Record κ δ} {whose : ι → ℕ → Option ℕ} {id : ℕ}

/-- An assignment of owners that each row agrees with. -/
structure Assigns (O : Ownership S) (s : Tables ι κ δ) (whose : ι → ℕ → Option ℕ) : Prop where
  own : ∀ i, ∀ r ∈ s i, ∀ column, O.home i = .own column → whose i r.id = r.refs column
  through : ∀ i, ∀ r ∈ s i, ∀ k, O.home i = .through k → ∀ id, r.refs k.column = some id →
    whose i r.id = whose k.target id
  nobody : ∀ i, ∀ r ∈ s i, O.home i = .nobody → whose i r.id = none

/-- Rows belong to whom they are assigned to. -/
theorem Assigns.owner (h : Assigns O s whose) (hs : Sound S s) (hr : r ∈ s i) : owner O s i r = whose i r.id := by
  induction hrank : S.rank i using Nat.strongRecOn generalizing i r with
  | ind n ih =>
    cases hhome : O.home i with
    | own column => rw [owner_own hhome, h.own i r hr column hhome]
    | nobody => rw [owner_nobody hhome, h.nobody i r hr hhome]
    | through k =>
      obtain ⟨hk, -, hnull⟩ := O.through i k hhome
      obtain ⟨p, hp⟩ := hs.leads i r hr k hk (hs.given i r hr k hk hnull)
      obtain ⟨hmem, href⟩ := follow_eq_some.mp hp
      have hlt : S.rank k.target < n := hrank ▸ S.ranked i k hk
      rw [owner_through hhome, hp, Option.bind_some, ih _ hlt hmem rfl, h.through i r hr k hhome p.id href]

/-- No key leads from one owner to another where none does as they are assigned. -/
theorem Assigns.fenced (h : Assigns O s whose) (hs : Sound S s)
    (hfence : ∀ i, ∀ r ∈ s i, ∀ k ∈ S.keys i, ∀ id, r.refs k.column = some id →
      whose k.target id = none ∨ whose k.target id = whose i r.id) : Fenced O s where
  toSound := hs
  fence i r hr k hk p hp := by
    obtain ⟨hmem, href⟩ := follow_eq_some.mp hp
    rw [h.owner hs hr, h.owner hs hmem]
    exact hfence i r hr k hk p.id href

/-- Whom the row of an id belongs to. -/
def ownerOf (O : Ownership S) (s : Tables ι κ δ) (i : ι) (id : ℕ) : Option ℕ :=
  ((s i).get id).bind (owner O s i)

theorem ownerOf_mem (hr : r ∈ s i) : ownerOf O s i r.id = owner O s i r := by
  have hget : (s i).get r.id = some r := Table.get_of_mem hr
  rw [ownerOf, hget, Option.bind_some]

theorem ownerOf_follow (hr : r ∈ s i) (hk : k ∈ S.keys i) (hs : Sound S s) (h : r.refs k.column = some id) :
    ∃ p, follow s r k = some p ∧ p.id = id ∧ ownerOf O s k.target id = owner O s k.target p := by
  obtain ⟨p, hp⟩ := hs.leads i r hr k hk (by simp [h])
  obtain ⟨hmem, href⟩ := follow_eq_some.mp hp
  obtain rfl : p.id = id := Option.some.inj (href.symm.trans h)
  exact ⟨p, hp, rfl, ownerOf_mem hmem⟩

/-- Rows are assigned to whom they belong. -/
theorem assigns_ownerOf (hs : Sound S s) : Assigns O s (ownerOf O s) where
  own i r hr column hhome := by rw [ownerOf_mem hr, owner_own hhome]
  through i r hr k hhome id href := by
    obtain ⟨p, hp, -, howner⟩ := ownerOf_follow (O := O) hr (O.through i k hhome).1 hs href
    rw [howner, ownerOf_mem hr, owner_through hhome, hp, Option.bind_some]
  nobody i r hr hhome := by rw [ownerOf_mem hr, owner_nobody hhome]

theorem Fenced.ownerOf (hs : Fenced O s) (hr : r ∈ s i) (hk : k ∈ S.keys i) (h : r.refs k.column = some id) :
    ownerOf O s k.target id = none ∨ ownerOf O s k.target id = ownerOf O s i r.id := by
  obtain ⟨p, hp, -, howner⟩ := ownerOf_follow (O := O) hr hk hs.toSound h
  rw [howner, ownerOf_mem hr]
  exact hs.fence i r hr k hk p hp

/-- Every key leads to a row still where every row is there still and what was written leads to one. -/
theorem Sound.written (hkept : ∀ i, ∀ p ∈ s i, ∃ q ∈ t i, q.id = p.id)
    (hrows : ∀ i, ∀ r ∈ t i, ∀ k ∈ S.keys i, (r.refs k.column = none → k.nullable = true) ∧
      (r.refs k.column ≠ none → ∃ p, follow s r k = some p)) : Sound S t where
  leads i r hr k hk hset := by
    obtain ⟨p, hp⟩ := (hrows i r hr k hk).2 hset
    obtain ⟨hmem, href⟩ := follow_eq_some.mp hp
    obtain ⟨q, hq, hid⟩ := hkept _ p hmem
    exact ⟨q, follow_eq_some.mpr ⟨hq, href.trans (congrArg some hid.symm)⟩⟩
  given i r hr k hk hnull hnone := by
    rw [(hrows i r hr k hk).1 hnone] at hnull
    cases hnull

theorem Sound.rows (hs : Sound S s) (hr : r ∈ s i) (hk : k ∈ S.keys i) :
    (r.refs k.column = none → k.nullable = true) ∧ (r.refs k.column ≠ none → ∃ p, follow s r k = some p) := by
  refine ⟨fun hnone => ?_, hs.leads i r hr k hk⟩
  by_contra hnull
  exact hs.given i r hr k hk (Bool.eq_false_iff.mpr hnull) hnone

end FastKit.Relational
