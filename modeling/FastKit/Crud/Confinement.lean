import FastKit.Services.Crud

/-! # What an operator of a brand is confined to

Which rows an operator of a brand reads and writes, by the brand they belong to, and what stays so
of a row while others write.
-/

namespace FastKit.Crud
open Relational Transaction Transaction.Program

variable {π δ : Type} {V : Services π δ} {operator : Operator} {m n : Model} {s t : Store δ} {r p : Row δ}
  {c id : ℕ} {writing strict : Bool} {holds : Option ℕ → Bool} {reach : Reach}
  {k : Key Model Column}

theorem home_of_hasTenant (h : m.hasTenant = true) : m.home = .own .tenantId := by
  rw [Model.home, if_pos h]

theorem owner_of_hasTenant (h : m.hasTenant = true) : owner brands s m r = r.refs .tenantId :=
  owner_own (home_of_hasTenant h)

theorem home_of_systemWide (h : m.systemWide = true) : m.home = .nobody := by
  cases m <;> first | rfl | cases h

/-- A row belongs to its parent by the key it reaches its tenant through. -/
theorem home_direct {column : Column} {parent : Model}
    (h : m.reachesThrough = some (.direct column parent)) :
    ∃ k, m.home = .through k ∧ k.column = column ∧ k.target = parent ∧ parent.hasTenant = true := by
  cases m <;> cases h <;> exact ⟨_, rfl, rfl, rfl, rfl⟩

theorem home_beyond {column : Column} {parent : Model} {next : Reach}
    (h : m.reachesThrough = some (.beyond column parent next)) :
    ∃ k, m.home = .through k ∧ k.column = column ∧ k.target = parent ∧
      parent.reachesThrough = some next := by
  cases m <;> cases h
  exact ⟨_, rfl, rfl, rfl, rfl⟩

/-- Reaching a tenant through the parents of a row is asking of the brand it belongs to. -/
theorem through_owner (hs : Sound schema s) (h : m.reachesThrough = some reach) (hr : r ∈ s m) :
    reach.through holds s r = holds (owner brands s m r) := by
  induction reach generalizing m r with
  | direct column parent =>
    obtain ⟨k, hhome, rfl, rfl, htenant⟩ := home_direct h
    obtain ⟨hk, -, hgiven⟩ := brands.through m k hhome
    obtain ⟨p, hp⟩ := hs.leads m r hr k hk (hs.given m r hr k hk hgiven)
    rw [owner_through hhome, hp, Option.bind_some, owner_of_hasTenant htenant]
    simp only [Reach.through]
    rw [← follow, hp, Option.any_some]
  | beyond column parent next ih =>
    obtain ⟨k, hhome, rfl, rfl, hnext⟩ := home_beyond h
    obtain ⟨hk, -, hgiven⟩ := brands.through m k hhome
    obtain ⟨p, hp⟩ := hs.leads m r hr k hk (hs.given m r hr k hk hgiven)
    rw [owner_through hhome, hp, Option.bind_some]
    simp only [Reach.through]
    rw [← follow, hp, Option.any_some]
    exact ih hnext (follow_eq_some.mp hp).1

theorem served (h : m.managed = true) :
    m.systemWide = true ∨ m.hasTenant = true ∨ ∃ reach, m.reachesThrough = some reach := by
  cases m <;> first | exact .inl rfl | exact .inr (.inl rfl) | exact .inr (.inr ⟨_, rfl⟩) | cases h

/-- A row an operator of a brand is confined to is one whose brand it asks for. -/
theorem confinement_eq (hs : Sound schema s) (hr : r ∈ s m) (hc : operator.tenantId = some c)
    (hm : m.systemWide = false) (hserved : m.hasTenant = true ∨ ∃ reach, m.reachesThrough = some reach) :
    confinement operator m writing s r = wanted operator m writing (owner brands s m r) := by
  unfold confinement
  rw [hc, hm, Option.isNone_some, Bool.or_false, if_neg Bool.false_ne_true]
  split_ifs with htenant
  · rw [owner_of_hasTenant htenant]
  · obtain ⟨reach, hreach⟩ := hserved.resolve_left htenant
    rw [hreach, Option.any_some, through_owner hs hreach hr]

/-- An operator of a brand asks for what belongs to it, and reads what belongs to none where it is
shared. -/
theorem wanted_cases {x : Option ℕ} (hc : operator.tenantId = some c)
    (h : wanted operator m writing x = true) : x = some c ∨ writing = false ∧ x = none := by
  unfold wanted at h
  rw [hc] at h
  split_ifs at h with hshared
  · rcases (Bool.or_eq_true _ _).mp h with heq | hnone
    · exact .inl (of_decide_eq_true heq)
    · exact .inr ⟨by simpa using ((Bool.and_eq_true _ _).mp hshared).2, Option.isNone_iff_eq_none.mp hnone⟩
  · exact .inl (of_decide_eq_true h)

/-- What an operator of a brand finds belongs to it, or to none where it reads or the table is one of
the system. -/
theorem find_eq_some (hs : Sound schema s) (hc : operator.tenantId = some c) (hm : m.managed = true)
    (h : find operator m id writing s = some p) : p ∈ s m ∧ p.id = id ∧
      (owner brands s m p = some c ∨ (writing = true → m.systemWide = true) ∧ owner brands s m p = none) := by
  obtain ⟨hget, hconfined⟩ := Option.filter_eq_some_iff.mp h
  obtain ⟨hp, hid⟩ := Table.get_eq_some_iff.mp hget
  refine ⟨hp, hid, ?_⟩
  rcases served hm with hsystem | hserved
  · exact .inr ⟨fun _ => hsystem, owner_nobody (home_of_systemWide hsystem)⟩
  · cases hsystem : m.systemWide with
    | true => exact .inr ⟨fun _ => rfl, owner_nobody (home_of_systemWide hsystem)⟩
    | false =>
      rw [confinement_eq hs hp hc hsystem hserved] at hconfined
      refine (wanted_cases hc hconfined).imp_right fun hread => ⟨fun hwriting => ?_, hread.2⟩
      rw [hwriting] at hread
      exact absurd hread.1 Bool.noConfusion

/-- A row of an id belongs to `c`, or to none where `strict` is not asked, wherever it is there still. -/
structure Fits (c : ℕ) (strict : Bool) (s : Store δ) (m : Model) (id : ℕ) : Prop where
  there : id < (s m).next
  owner : ∀ p ∈ s m, p.id = id →
    owner brands s m p = some c ∨ strict = false ∧ owner brands s m p = none

theorem Fits.lasting (h : Fits c strict s m id) (hst : Lasting brands s t) : Fits c strict t m id where
  there := Nat.lt_of_lt_of_le h.there (hst.next m)
  owner p hp hid := by
    obtain ⟨a, ha, haid, howner⟩ := hst.owner m p hp (hid ▸ h.there)
    rw [← howner]
    exact h.owner a ha (haid.trans hid)

theorem fits_of_mem (hp : p ∈ s m)
    (howner : owner brands s m p = some c ∨ strict = false ∧ owner brands s m p = none) :
    Fits c strict s m p.id where
  there := (s m).fresh p hp
  owner a ha hid := by
    obtain rfl : a = p := Table.eq_of_id ha hp hid
    exact howner

/-- What an operator of a brand does to the store, and so what another one may find of it. -/
structure Stays (c : ℕ) (s t : Store δ) : Prop where
  fenced : Fenced brands t
  lasting : Lasting brands s t
  untouched : ∀ x, x ≠ some c → Untouched brands x s t

theorem Stays.refl (hs : Fenced brands s) : Stays c s s :=
  ⟨hs, .refl s, fun _ _ => .refl s⟩

theorem Stays.trans {u : Store δ} (h : Stays c s t) (h' : Stays c t u) : Stays c s u :=
  ⟨h'.fenced, h.lasting.trans h'.lasting, fun x hx => (h.untouched x hx).trans (h'.untouched x hx)⟩

theorem stays_of_edits (hs : Fenced brands s) (h : Edits brands c s t) : Stays c s t :=
  ⟨h.fenced hs, h.lasting hs, fun _ hx => h.untouched hs hx⟩

end FastKit.Crud
