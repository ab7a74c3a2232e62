import FastKit.Relational.Owners

/-! # An owner that leaves

The owners are the rows of one table, and a row belongs to the one it names. What an owner leaves is
deleted table after table: no statement is refused where the tables of what keeps its rows went
before, and in the end everything that belonged to the owner is gone and nothing else.
-/

namespace FastKit.Relational
open Transaction

variable {ι κ δ : Type} [DecidableEq κ] {S : Schema ι κ} {O : Ownership S}
  {s t u : Tables ι κ δ} {roots : ι → ℕ → Bool} {head i j m : ι} {k : Key ι κ} {r p : Record κ δ}
  {lenient : Bool} {n c : ℕ} {gone : List ι}

/-- The owners are the rows of a table of nobody's, which rows go with, and which they are pointed at
only to say that they belong to one. -/
structure Headed (O : Ownership S) (head : ι) : Prop where
  nobody : O.home head = .nobody
  own : ∀ i, ∀ k ∈ S.keys i, k.target = head → O.home i = .own k.column
  key : ∀ i column, O.home i = .own column →
    ∃ k ∈ S.keys i, k.column = column ∧ k.target = head ∧ k.onDelete = .cascade

/-- What goes with the owner `c`: what belongs to it, and its own row. -/
def Mine (O : Ownership S) (head : ι) (c : ℕ) (s : Tables ι κ δ) (i : ι) (r : Record κ δ) : Prop :=
  owner O s i r = some c ∨ i = head ∧ r.id = c

omit [DecidableEq κ] in
/-- What points at what goes with an owner belongs to it. -/
theorem Mine.referring (hs : Fenced O s) (hh : Headed O head) (hr : r ∈ s i) (hk : k ∈ S.keys i)
    (hp : follow s r k = some p) (hmine : Mine O head c s k.target p) : owner O s i r = some c := by
  rcases hmine with howner | ⟨hhead, rfl⟩
  · rcases hs.fence i r hr k hk p hp with hnobody | hsame
    · rw [howner] at hnobody
      cases hnobody
    · exact hsame.symm.trans howner
  · rw [owner_own (hh.own i k hk hhead)]
    exact (follow_eq_some.mp hp).2

omit [DecidableEq κ] in
theorem falls_mine (hs : Fenced O s) (hh : Headed O head)
    (hroots : ∀ i, ∀ r ∈ s i, roots i r.id = true → Mine O head c s i r) (hr : r ∈ s i)
    (hfalls : falls S s roots i r = true) : Mine O head c s i r := by
  induction hrank : S.rank i using Nat.strongRecOn generalizing i r with
  | ind n ih =>
    rcases falls_iff.mp hfalls with hroot | ⟨k, hk, -, p, hp, hpfalls⟩
    · exact hroots i r hr hroot
    · have hmine := ih _ (hrank ▸ S.ranked i k hk) (follow_eq_some.mp hp).1 hpfalls rfl
      exact .inl (hmine.referring hs hh hr hk hp)

omit [DecidableEq κ] in
/-- What belongs to an owner falls with it. -/
theorem mine_falls (hs : Fenced O s) (hh : Headed O head) (hroots : roots head c = true) (hr : r ∈ s i)
    (hmine : Mine O head c s i r) : falls S s roots i r = true := by
  rcases hmine with howner | ⟨rfl, rfl⟩
  · induction hrank : S.rank i using Nat.strongRecOn generalizing i r with
    | ind n ih =>
      cases hhome : O.home i with
      | nobody =>
        rw [owner_nobody hhome] at howner
        cases howner
      | own column =>
        obtain ⟨k, hk, rfl, hhead, haction⟩ := hh.key i column hhome
        rw [owner_own hhome] at howner
        obtain ⟨p, hp⟩ := hs.leads i r hr k hk (by simp [howner])
        have hid : p.id = c := Option.some.inj ((follow_eq_some.mp hp).2.symm.trans howner)
        exact falls_iff.mpr (.inr ⟨k, hk, haction, p, hp,
          falls_iff.mpr (.inl (by rw [hhead, hid]; exact hroots))⟩)
      | through k =>
        obtain ⟨hk, haction, -⟩ := O.through i k hhome
        rw [owner_through hhome] at howner
        obtain ⟨p, hp, howner⟩ := Option.bind_eq_some_iff.mp howner
        exact falls_iff.mpr (.inr ⟨k, hk, haction, p, hp,
          ih _ (hrank ▸ S.ranked i k hk) (follow_eq_some.mp hp).1 howner rfl⟩)
  · exact falls_iff.mpr (.inl hroots)

/-- A `DELETE` of an owner leaves what does not go with it, and as it was. -/
theorem mem_swept_head (hs : Fenced O s) (hh : Headed O head)
    (hroots : ∀ i id, roots i id = true ↔ i = head ∧ id = c) :
    r ∈ swept S s roots i ↔ r ∈ s i ∧ ¬Mine O head c s i r := by
  have hroot : ∀ i, ∀ r ∈ s i, roots i r.id = true → Mine O head c s i r := fun i r _ h =>
    .inr ((hroots i r.id).mp h)
  have hsame : ∀ r ∈ s i, ¬Mine O head c s i r → unpointed S s roots i r = r := by
    intro r hr hmine
    have hrefs : (unpointed S s roots i r).refs = r.refs := by
      funext column
      refine (unpointed_refs roots i r column).resolve_right ?_
      rintro ⟨-, k, hk, -, -, p, hp, hfalls⟩
      have hp' := falls_mine hs hh hroot (follow_eq_some.mp hp).1 hfalls
      exact hmine (.inl (hp'.referring hs hh hr hk hp))
    exact congrArg (fun refs => { r with refs := refs }) hrefs
  have hstays : ∀ r ∈ s i, falls S s roots i r = false ↔ ¬Mine O head c s i r := by
    intro r hr
    rw [Bool.eq_false_iff, not_iff_not]
    exact ⟨falls_mine hs hh hroot hr, mine_falls hs hh ((hroots head c).mpr ⟨rfl, rfl⟩) hr⟩
  rw [mem_swept]
  constructor
  · rintro ⟨a, ha, hfalls, rfl⟩
    have hmine := (hstays a ha).mp hfalls
    rw [hsame a ha hmine]
    exact ⟨ha, hmine⟩
  · rintro ⟨hr, hmine⟩
    exact ⟨r, hr, (hstays r hr).mpr hmine, hsame r hr hmine⟩

/-- What is left of the rows, each with the keys it had but those that were emptied. -/
def Fewer (S : Schema ι κ) (s t : Tables ι κ δ) : Prop :=
  ∀ i, ∀ r ∈ t i, ∃ a ∈ s i, a.id = r.id ∧
    ∀ k ∈ S.keys i, k.onDelete ≠ .setNull → r.refs k.column = a.refs k.column

omit [DecidableEq κ] in
theorem Fewer.refl (s : Tables ι κ δ) : Fewer S s s := fun _ r hr => ⟨r, hr, rfl, fun _ _ _ => rfl⟩

omit [DecidableEq κ] in
theorem Fewer.trans (h : Fewer S s t) (h' : Fewer S t u) : Fewer S s u := by
  intro i r hr
  obtain ⟨b, hb, hid, hkeys⟩ := h' i r hr
  obtain ⟨a, ha, hid', hkeys'⟩ := h i b hb
  exact ⟨a, ha, hid'.trans hid, fun k hk haction => (hkeys k hk haction).trans (hkeys' k hk haction)⟩

theorem fewer_swept : Fewer S s (swept S s roots) := by
  intro i r hr
  obtain ⟨a, ha, -, rfl⟩ := mem_swept.mp hr
  exact ⟨a, ha, rfl, fun k hk haction => unpointed_of_ne hk haction⟩

section Accepted
variable [DecidableEq ι]

/-- Whether a row of a table may fall with one of another, looking `n` keys far. -/
def mayFallWithin (S : Schema ι κ) (m : ι) : ℕ → ι → Bool
  | 0, i => i = m
  | n + 1, i => i = m || (S.keys i).any (fun k => k.onDelete = .cascade && mayFallWithin S m n k.target)

omit [DecidableEq κ] in
theorem mayFallWithin_of_fallsWithin (hroots : ∀ i id, roots i id = true → i = m)
    (h : fallsWithin S s roots n i r = true) : mayFallWithin S m n i = true := by
  induction n generalizing i r with
  | zero => exact decide_eq_true (hroots i r.id h)
  | succ n ih =>
    rw [fallsWithin, Bool.or_eq_true, List.any_eq_true] at h
    rw [mayFallWithin, Bool.or_eq_true, List.any_eq_true]
    rcases h with hroot | ⟨k, hk, hfall⟩
    · exact .inl (decide_eq_true (hroots i r.id hroot))
    · rw [Bool.and_eq_true, Option.any_eq_true] at hfall
      obtain ⟨haction, p, -, hp⟩ := hfall
      exact .inr ⟨k, hk, (Bool.and_eq_true _ _).mpr ⟨haction, ih hp⟩⟩

/-- Whether every table whose rows keep those that may fall with a row of `m` is among `gone`, as far
as the tables they are kept in are not. -/
def Schema.safe (S : Schema ι κ) (m : ι) (gone : List ι) : Bool :=
  S.tables.all (fun j => gone.contains j || (S.keys j).all (fun k => k.onDelete ≠ .restrict ||
    gone.contains k.target || !mayFallWithin S m (S.rank k.target) k.target))

/-- A statement that deletes only what goes with an owner is not refused, where it is safe. -/
theorem delete_accepted (lenient : Bool) (hs : Fenced O s) (hh : Headed O head)
    (hroots : ∀ i, ∀ r ∈ s i, roots i r.id = true → Mine O head c s i r)
    (honly : ∀ i id, roots i id = true → i = m)
    (hgone : ∀ i ∈ gone, ∀ r ∈ s i, ¬Mine O head c s i r) (hsafe : S.safe m gone = true) :
    delete S s roots lenient = some (swept S s roots) := by
  refine delete_eq_some.mpr ⟨rfl, fun j r hr => Bool.eq_false_iff.mpr fun hres => ?_⟩
  obtain ⟨-, k, hk, haction, p, hp, hfalls⟩ := restricts_iff.mp hres
  have hmem := (follow_eq_some.mp hp).1
  have hmine := falls_mine hs hh hroots hmem hfalls
  have hjgone : j ∉ gone := fun hj => hgone j hj r hr (.inl (hmine.referring hs hh hr hk hp))
  have htarget : k.target ∉ gone := fun hj => hgone k.target hj p hmem hmine
  have hcheck := List.all_eq_true.mp hsafe j (S.complete j)
  rw [Bool.or_eq_true, List.all_eq_true] at hcheck
  have hkey := hcheck.resolve_left (by simpa using hjgone) k hk
  have hmay := mayFallWithin_of_fallsWithin honly hfalls
  simp [haction, htarget, hmay] at hkey

end Accepted
end FastKit.Relational
