import FastKit.Relational.Keys

/-! # Rows that belong to somebody

A row belongs to whom a column of its own says, to whom the row one of its keys leads to belongs, or
to nobody. Where no key leads from what one owner has to what another one has, a write within what
one owner has leaves everything else as it is, and no key leads from one owner to another after it.
-/

namespace FastKit.Relational
open Transaction

/-- Where it is said whom a row belongs to. -/
inductive Home (ι κ : Type) where
  | own (column : κ)
  | through (key : Key ι κ)
  | nobody
  deriving DecidableEq

/-- Where each table says whom its rows belong to: in a column that is never emptied, or through a
key that its rows fall by. -/
structure Ownership {ι κ : Type} (S : Schema ι κ) where
  home : ι → Home ι κ
  own : ∀ i column, home i = .own column → ∀ k ∈ S.keys i, k.column = column → k.onDelete ≠ .setNull
  through : ∀ i k, home i = .through k → k ∈ S.keys i ∧ k.onDelete = .cascade ∧ k.nullable = false

variable {ι κ δ : Type} {S : Schema ι κ} {O : Ownership S} {s t u : Tables ι κ δ}
  {roots : ι → ℕ → Bool} {i : ι} {k : Key ι κ} {r p : Record κ δ} {lenient : Bool} {n c : ℕ}
  {x : Option ℕ}

/-- Whom a row belongs to, looking `n` keys far. -/
def ownerWithin (O : Ownership S) (s : Tables ι κ δ) : ℕ → ι → Record κ δ → Option ℕ
  | 0, i, r => match O.home i with
    | .own column => r.refs column
    | _ => none
  | n + 1, i, r => match O.home i with
    | .own column => r.refs column
    | .through k => (follow s r k).bind (ownerWithin O s n k.target)
    | .nobody => none

def owner (O : Ownership S) (s : Tables ι κ δ) (i : ι) (r : Record κ δ) : Option ℕ :=
  ownerWithin O s (S.rank i) i r

theorem ownerWithin_eq {m : ℕ} (hn : S.rank i ≤ n) (hm : S.rank i ≤ m) :
    ownerWithin O s n i r = ownerWithin O s m i r := by
  induction n generalizing m i r with
  | zero =>
    cases hhome : O.home i with
    | through k => exact absurd (O.through i k hhome).1 (by simp [keys_nil (Nat.le_zero.mp hn)])
    | own | nobody => cases m <;> simp [ownerWithin, hhome]
  | succ n ih =>
    cases hhome : O.home i with
    | own | nobody => cases m <;> simp [ownerWithin, hhome]
    | through k =>
      have hlt := S.ranked i k (O.through i k hhome).1
      cases m with
      | zero => omega
      | succ m =>
        have hsame : ownerWithin O s n k.target = ownerWithin O s m k.target := by
          funext p
          exact ih (by omega) (by omega)
        simp only [ownerWithin, hhome, hsame]

theorem owner_own {column : κ} (h : O.home i = .own column) : owner O s i r = r.refs column := by
  unfold owner
  cases S.rank i <;> simp [ownerWithin, h]

theorem owner_nobody (h : O.home i = .nobody) : owner O s i r = none := by
  unfold owner
  cases S.rank i <;> simp [ownerWithin, h]

theorem owner_through (h : O.home i = .through k) :
    owner O s i r = (follow s r k).bind (owner O s k.target) := by
  have hlt := S.ranked i k (O.through i k h).1
  have hone : owner O s i r = ownerWithin O s (S.rank i + 1) i r :=
    ownerWithin_eq (Nat.le_refl _) (Nat.le_succ _)
  have hsame : ownerWithin O s (S.rank i) k.target = owner O s k.target := by
    funext p
    exact ownerWithin_eq (Nat.le_of_lt hlt) (Nat.le_refl _)
  simp only [hone, ownerWithin, h, hsame]

/-- No key leads from what belongs to one to what belongs to another: where it leads belongs to
nobody, or to whom the row belongs. -/
structure Fenced (O : Ownership S) (s : Tables ι κ δ) : Prop extends Sound S s where
  fence : ∀ i, ∀ r ∈ s i, ∀ k ∈ S.keys i, ∀ p, follow s r k = some p →
    owner O s k.target p = none ∨ owner O s k.target p = owner O s i r

/-- Whether keys lead from one to another is read off table by table. -/
theorem fenced_iff : Fenced O s ↔ ∀ i ∈ S.tables, ∀ r ∈ s i, ∀ k ∈ S.keys i,
    (r.refs k.column = none → k.nullable = true) ∧ (r.refs k.column ≠ none →
      (follow s r k).any (fun p => owner O s k.target p = none ∨
        owner O s k.target p = owner O s i r) = true) := by
  constructor
  · intro h i _ r hr k hk
    refine ⟨fun hnone => ?_, fun hset => ?_⟩
    · by_contra hnull
      exact h.given i r hr k hk (Bool.eq_false_iff.mpr hnull) hnone
    · obtain ⟨p, hp⟩ := h.leads i r hr k hk hset
      rw [hp, Option.any_some]
      exact decide_eq_true (h.fence i r hr k hk p hp)
  · intro h
    refine ⟨⟨fun i r hr k hk hset => ?_, fun i r hr k hk hnull hnone => ?_⟩, fun i r hr k hk p hp => ?_⟩
    · obtain ⟨p, hp, -⟩ := (Option.any_eq_true _ _).mp ((h i (S.complete i) r hr k hk).2 hset)
      exact ⟨p, hp⟩
    · rw [(h i (S.complete i) r hr k hk).1 hnone] at hnull
      cases hnull
    · have hset : r.refs k.column ≠ none := by simp [(follow_eq_some.mp hp).2]
      have hany := (h i (S.complete i) r hr k hk).2 hset
      rw [hp, Option.any_some] at hany
      exact of_decide_eq_true hany

instance : Decidable (Fenced O s) := decidable_of_iff _ fenced_iff.symm

/-- A row written for `c`: one that belonged to it or a new one, that says it belongs to `c` and leads
nowhere but to what belongs to `c` or to nobody. -/
structure Written (O : Ownership S) (c : ℕ) (s : Tables ι κ δ) (i : ι) (r : Record κ δ) : Prop where
  was : ∀ a ∈ s i, a.id = r.id → owner O s i a = some c
  fresh : (∀ a ∈ s i, a.id ≠ r.id) → (s i).next ≤ r.id
  own : ∀ column, O.home i = .own column → r.refs column = some c
  through : ∀ k, O.home i = .through k → ∃ p, follow s r k = some p ∧ owner O s k.target p = some c
  somebody : O.home i ≠ .nobody
  fence : ∀ k ∈ S.keys i, r.refs k.column ≠ none → ∃ p, follow s r k = some p ∧
    (owner O s k.target p = none ∨ owner O s k.target p = some c)

/-- What a write within what belongs to `c` does. -/
structure Edits (O : Ownership S) (c : ℕ) (s t : Tables ι κ δ) : Prop where
  sound : Sound S t
  next : ∀ i, (s i).next ≤ (t i).next
  kept : ∀ i, ∀ r ∈ s i, owner O s i r ≠ some c → r ∈ t i
  rows : ∀ i, ∀ r ∈ t i, r ∈ s i ∨ Written O c s i r

/-- What stays where it was written and whom it belongs to, as others write. -/
structure Lasting (O : Ownership S) (s t : Tables ι κ δ) : Prop where
  next : ∀ i, (s i).next ≤ (t i).next
  owner : ∀ i, ∀ r ∈ t i, r.id < (s i).next → ∃ a ∈ s i, a.id = r.id ∧ owner O s i a = owner O t i r

def Untouched (O : Ownership S) (x : Option ℕ) (s t : Tables ι κ δ) : Prop :=
  ∀ i r, r ∈ t i ∧ owner O t i r = x ↔ r ∈ s i ∧ owner O s i r = x

theorem Lasting.refl (s : Tables ι κ δ) : Lasting O s s :=
  ⟨fun _ => Nat.le_refl _, fun _ r hr _ => ⟨r, hr, rfl, rfl⟩⟩

theorem Lasting.trans (h : Lasting O s t) (h' : Lasting O t u) : Lasting O s u where
  next i := Nat.le_trans (h.next i) (h'.next i)
  owner i r hr hlt := by
    obtain ⟨a, ha, hid, howner⟩ := h'.owner i r hr (Nat.lt_of_lt_of_le hlt (h.next i))
    obtain ⟨b, hb, hid', howner'⟩ := h.owner i a ha (by rwa [hid])
    exact ⟨b, hb, hid'.trans hid, howner'.trans howner⟩

theorem Untouched.refl (s : Tables ι κ δ) : Untouched O x s s := fun _ _ => Iff.rfl

theorem Untouched.trans (h : Untouched O x s t) (h' : Untouched O x t u) : Untouched O x s u :=
  fun i r => (h' i r).trans (h i r)

/-- Whom a row belongs to after a write: whom it did, or whom it was written for. -/
theorem Edits.owner (h : Edits O c s t) (hs : Fenced O s) (hr : r ∈ t i) :
    (r ∈ s i → owner O t i r = Relational.owner O s i r) ∧
      (Written O c s i r → Relational.owner O t i r = some c) := by
  induction hrank : S.rank i using Nat.strongRecOn generalizing i r with
  | ind n ih =>
    -- a row that is there after the write, of the id of one that was there before it
    have hstill : ∀ {j a b}, S.rank j < n → a ∈ s j → b ∈ t j → b.id = a.id →
        Relational.owner O t j b = Relational.owner O s j a := by
      intro j a b hj ha hb hid
      rcases h.rows j b hb with hold | hwritten
      · obtain rfl : b = a := Table.eq_of_id hold ha hid
        exact (ih _ hj hb rfl).1 ha
      · rw [(ih _ hj hb rfl).2 hwritten, hwritten.was a ha hid.symm]
    cases hhome : O.home i with
    | own column =>
      rw [owner_own hhome, owner_own hhome]
      exact ⟨fun _ => rfl, fun hwritten => hwritten.own column hhome⟩
    | nobody =>
      rw [owner_nobody hhome, owner_nobody hhome]
      exact ⟨fun _ => rfl, fun hwritten => absurd hhome hwritten.somebody⟩
    | through k =>
      obtain ⟨hk, -, hnull⟩ := O.through i k hhome
      have hlt : S.rank k.target < n := hrank ▸ S.ranked i k hk
      obtain ⟨b, hb⟩ := h.sound.leads i r hr k hk (h.sound.given i r hr k hk hnull)
      obtain ⟨hbmem, hbref⟩ := follow_eq_some.mp hb
      have hlead : ∀ {a}, follow s r k = some a →
          Relational.owner O t k.target b = Relational.owner O s k.target a := by
        intro a ha
        obtain ⟨hamem, haref⟩ := follow_eq_some.mp ha
        exact hstill hlt hamem hbmem (Option.some.inj (hbref.symm.trans haref))
      rw [owner_through hhome, owner_through hhome, hb, Option.bind_some]
      constructor
      · intro hold
        obtain ⟨a, ha⟩ := hs.leads i r hold k hk (hs.given i r hold k hk hnull)
        rw [ha, Option.bind_some, hlead ha]
      · intro hwritten
        obtain ⟨a, ha, howner⟩ := hwritten.through k hhome
        rw [hlead ha, howner]

/-- A row that is there before and after a write belongs to whom it did. -/
theorem Edits.still (h : Edits O c s t) (hs : Fenced O s) {a b : Record κ δ} (ha : a ∈ s i) (hb : b ∈ t i)
    (hid : b.id = a.id) : Relational.owner O t i b = Relational.owner O s i a := by
  rcases h.rows i b hb with hold | hwritten
  · obtain rfl : b = a := Table.eq_of_id hold ha hid
    exact (h.owner hs hb).1 ha
  · rw [(h.owner hs hb).2 hwritten, hwritten.was a ha hid.symm]

theorem Edits.fenced (h : Edits O c s t) (hs : Fenced O s) : Fenced O t where
  toSound := h.sound
  fence i r hr k hk b hb := by
    obtain ⟨hbmem, hbref⟩ := follow_eq_some.mp hb
    have hset : r.refs k.column ≠ none := by simp [hbref]
    have hlead : ∀ {a}, follow s r k = some a →
        Relational.owner O t k.target b = Relational.owner O s k.target a := by
      intro a ha
      obtain ⟨hamem, haref⟩ := follow_eq_some.mp ha
      exact h.still hs hamem hbmem (Option.some.inj (hbref.symm.trans haref))
    rcases h.rows i r hr with hold | hwritten
    · obtain ⟨a, ha⟩ := hs.leads i r hold k hk hset
      rw [hlead ha, (h.owner hs hr).1 hold]
      exact hs.fence i r hold k hk a ha
    · obtain ⟨a, ha, howner⟩ := hwritten.fence k hk hset
      rw [hlead ha, (h.owner hs hr).2 hwritten]
      exact howner

theorem Edits.lasting (h : Edits O c s t) (hs : Fenced O s) : Lasting O s t where
  next := h.next
  owner i r hr hlt := by
    rcases h.rows i r hr with hold | hwritten
    · exact ⟨r, hold, rfl, ((h.owner hs hr).1 hold).symm⟩
    · by_cases hnew : ∀ a ∈ s i, a.id ≠ r.id
      · exact absurd hlt (Nat.not_lt.mpr (hwritten.fresh hnew))
      · push Not at hnew
        obtain ⟨a, ha, hid⟩ := hnew
        exact ⟨a, ha, hid, (h.still hs ha hr hid.symm).symm⟩

theorem Edits.untouched (h : Edits O c s t) (hs : Fenced O s) (hx : x ≠ some c) : Untouched O x s t := by
  intro i r
  constructor
  · rintro ⟨hr, rfl⟩
    rcases h.rows i r hr with hold | hwritten
    · exact ⟨hold, ((h.owner hs hr).1 hold).symm⟩
    · exact absurd ((h.owner hs hr).2 hwritten) hx
  · rintro ⟨hr, rfl⟩
    have hkept := h.kept i r hr hx
    exact ⟨hkept, (h.owner hs hkept).1 hr⟩

section Writes

/-- A table of the store in place of another. -/
theorem mem_update [DecidableEq ι] {j : ι} {table : Table (Record κ δ)} :
    r ∈ Function.update s i table j ↔ (j = i ∧ r ∈ table) ∨ (j ≠ i ∧ r ∈ s j) := by
  by_cases h : j = i
  · obtain rfl := h
    simp
  · simp [h]

/-- The rows there are once one was added to a table. -/
theorem mem_update_insert [DecidableEq ι] {j : ι} {make : ℕ → Record κ δ} {table : Table (Record κ δ)}
    (h : (s i).insert make = some (r, table)) :
    p ∈ Function.update s i table j ↔ p ∈ s j ∨ j = i ∧ p = r := by
  rw [mem_update, Table.mem_insert h]
  by_cases hj : j = i
  · subst hj
    simp
  · simp [hj]

/-- A new row that is written for `c`. -/
theorem edits_insert [DecidableEq ι] {make : ℕ → Record κ δ} {table : Table (Record κ δ)} (hs : Sound S s)
    (hinsert : (s i).insert make = some (r, table)) (hwritten : Written O c s i r)
    (hgiven : ∀ k ∈ S.keys i, k.nullable = false → r.refs k.column ≠ none) :
    Edits O c s (Function.update s i table) := by
  have hold : ∀ j, ∀ a ∈ s j, a ∈ Function.update s i table j := fun j a ha =>
    (mem_update_insert hinsert).mpr (.inl ha)
  have hrows : ∀ j, ∀ a ∈ Function.update s i table j, a ∈ s j ∨ j = i ∧ a = r := fun j a ha =>
    (mem_update_insert hinsert).mp ha
  have hfollow : ∀ {a b : Record κ δ} {k : Key ι κ}, follow s a k = some b →
      follow (Function.update s i table) a k = some b := by
    intro a b k h
    obtain ⟨hmem, href⟩ := follow_eq_some.mp h
    exact follow_eq_some.mpr ⟨hold _ _ hmem, href⟩
  refine ⟨⟨fun j a ha k hk hset => ?_, fun j a ha k hk hnull => ?_⟩, fun j => ?_, fun j a ha _ => hold j a ha,
    fun j a ha => ?_⟩
  · rcases hrows j a ha with ha | ⟨rfl, rfl⟩
    · obtain ⟨p, hp⟩ := hs.leads j a ha k hk hset
      exact ⟨p, hfollow hp⟩
    · obtain ⟨p, hp, -⟩ := hwritten.fence k hk hset
      exact ⟨p, hfollow hp⟩
  · rcases hrows j a ha with ha | ⟨rfl, rfl⟩
    · exact hs.given j a ha k hk hnull
    · exact hgiven k hk hnull
  · by_cases h : j = i
    · obtain rfl := h
      rw [Function.update_self, (Table.insert_eq_some hinsert).2.2.2.2]
      exact Nat.le_succ _
    · exact Nat.le_of_eq (by rw [Function.update_of_ne h])
  · exact (hrows j a ha).imp_right (by rintro ⟨rfl, rfl⟩; exact hwritten)

/-- Rows rewritten for `c`. -/
theorem edits_modify [DecidableEq ι] {rewritten : Record κ δ → Bool} {f : Record κ δ → Record κ δ}
    (hf : Still f) (hs : Sound S s)
    (hwritten : ∀ r ∈ s i, rewritten r = true → owner O s i r = some c ∧ Written O c s i (f r))
    (hgiven : ∀ r ∈ s i, rewritten r = true → ∀ k ∈ S.keys i, k.nullable = false →
      (f r).refs k.column ≠ none) :
    Edits O c s (Function.update s i ((s i).modify rewritten f hf)) := by
  have hrows : ∀ j, ∀ a ∈ Function.update s i ((s i).modify rewritten f hf) j,
      a ∈ s j ∨ j = i ∧ ∃ r ∈ s i, rewritten r = true ∧ a = f r := by
    intro j a ha
    rcases mem_update.mp ha with ⟨rfl, hnew⟩ | ⟨-, hold⟩
    · obtain ⟨r, hr, rfl⟩ := (Table.mem_modify hf).mp hnew
      split_ifs with hp
      · exact .inr ⟨rfl, r, hr, hp, rfl⟩
      · exact .inl hr
    · exact .inl hold
  have hfollow : ∀ {a b : Record κ δ} {k : Key ι κ}, follow s a k = some b →
      ∃ b', follow (Function.update s i ((s i).modify rewritten f hf)) a k = some b' := by
    intro a b k h
    obtain ⟨hmem, href⟩ := follow_eq_some.mp h
    by_cases hi : k.target = i
    · refine ⟨_, follow_eq_some.mpr ⟨mem_update.mpr (.inl ⟨hi, Table.mem_modify_of_mem hf (hi ▸ hmem)⟩), ?_⟩⟩
      rw [href]
      split_ifs
      · exact congrArg some (hf b).1.symm
      · rfl
    · exact ⟨b, follow_eq_some.mpr ⟨mem_update.mpr (.inr ⟨hi, hmem⟩), href⟩⟩
  refine ⟨⟨fun j a ha k hk hset => ?_, fun j a ha k hk hnull => ?_⟩, fun j => ?_, fun j a ha howner => ?_,
    fun j a ha => ?_⟩
  · rcases hrows j a ha with ha | ⟨rfl, r, hr, hp, rfl⟩
    · obtain ⟨p, hp⟩ := hs.leads j a ha k hk hset
      exact hfollow hp
    · obtain ⟨p, hp, -⟩ := (hwritten r hr hp).2.fence k hk hset
      exact hfollow hp
  · rcases hrows j a ha with ha | ⟨rfl, r, hr, hp, rfl⟩
    · exact hs.given j a ha k hk hnull
    · exact hgiven r hr hp k hk hnull
  · by_cases h : j = i
    · obtain rfl := h
      exact Nat.le_of_eq (by rw [Function.update_self]; rfl)
    · exact Nat.le_of_eq (by rw [Function.update_of_ne h])
  · by_cases h : j = i
    · obtain rfl := h
      have hnot : rewritten a = false := Bool.eq_false_iff.mpr fun hp => howner (hwritten a ha hp).1
      have hmem := Table.mem_modify_of_mem (p := rewritten) hf ha
      rw [if_neg (by simp [hnot])] at hmem
      exact mem_update.mpr (.inl ⟨rfl, hmem⟩)
    · exact mem_update.mpr (.inr ⟨h, ha⟩)
  · refine (hrows j a ha).imp_right ?_
    rintro ⟨rfl, r, hr, hp, rfl⟩
    exact (hwritten r hr hp).2

/-- What falls with what belongs to `c` belongs to it. -/
theorem Fenced.falls (hs : Fenced O s) (hroots : ∀ i, ∀ r ∈ s i, roots i r.id = true → owner O s i r = some c)
    (hr : r ∈ s i) (hfalls : falls S s roots i r = true) : owner O s i r = some c := by
  induction hrank : S.rank i using Nat.strongRecOn generalizing i r with
  | ind n ih =>
    rcases falls_iff.mp hfalls with hroot | ⟨k, hk, -, p, hp, hpfalls⟩
    · exact hroots i r hr hroot
    · have hlt := S.ranked i k hk
      have howner := ih _ (hrank ▸ hlt) (follow_eq_some.mp hp).1 hpfalls rfl
      rcases hs.fence i r hr k hk p hp with hnobody | hsame
      · rw [howner] at hnobody
        cases hnobody
      · exact hsame.symm.trans howner

/-- A `DELETE` of what belongs to `c`. -/
theorem edits_delete [DecidableEq κ] (hs : Fenced O s)
    (hroots : ∀ i, ∀ r ∈ s i, roots i r.id = true → owner O s i r = some c)
    (hdelete : delete S s roots lenient = some t) : Edits O c s t := by
  have hsound := hs.toSound.delete hdelete
  obtain ⟨rfl, -⟩ := delete_eq_some.mp hdelete
  -- a key is emptied only in what belongs to `c`
  have hemptied : ∀ i, ∀ r ∈ s i, ∀ column, (unpointed S s roots i r).refs column = r.refs column ∨
      owner O s i r = some c := by
    intro i r hr column
    refine (unpointed_refs roots i r column).imp_right ?_
    rintro ⟨-, k, hk, -, -, p, hp, hpfalls⟩
    have howner := hs.falls hroots (follow_eq_some.mp hp).1 hpfalls
    rcases hs.fence i r hr k hk p hp with hnobody | hsame
    · rw [howner] at hnobody
      cases hnobody
    · exact hsame.symm.trans howner
  have hsame : ∀ i, ∀ r ∈ s i, owner O s i r ≠ some c → unpointed S s roots i r = r := by
    intro i r hr howner
    have hrefs : (unpointed S s roots i r).refs = r.refs := by
      funext column
      exact (hemptied i r hr column).resolve_right howner
    exact congrArg (fun refs => { r with refs := refs }) hrefs
  refine ⟨hsound, fun i => Nat.le_refl _, fun i r hr howner => ?_, fun i r' hr' => ?_⟩
  · refine mem_swept.mpr ⟨r, hr, Bool.eq_false_iff.mpr fun hfalls => ?_, hsame i r hr howner⟩
    exact howner (hs.falls hroots hr hfalls)
  · obtain ⟨r, hr, hstays, rfl⟩ := mem_swept.mp hr'
    by_cases howner : owner O s i r = some c
    · refine .inr ⟨fun a ha hid => ?_, fun hnew => absurd rfl (hnew r hr), fun column hhome => ?_,
        fun k hhome => ?_, fun hhome => ?_, fun k hk hset => ?_⟩
      · obtain rfl : a = r := Table.eq_of_id ha hr hid
        exact howner
      · rw [owner_own hhome] at howner
        rcases unpointed_refs (S := S) (s := s) roots i r column with hkept | ⟨-, k, hk, hcolumn, hnull, -⟩
        · exact hkept.trans howner
        · exact absurd hnull (O.own i column hhome k hk hcolumn)
      · obtain ⟨hk, haction, -⟩ := O.through i k hhome
        rw [owner_through hhome] at howner
        obtain ⟨p, hp, howner⟩ := Option.bind_eq_some_iff.mp howner
        refine ⟨p, ?_, howner⟩
        rw [follow, unpointed_of_ne hk (by simp [haction])]
        exact hp
      · rw [owner_nobody hhome] at howner
        cases howner
      · rcases unpointed_refs (S := S) (s := s) roots i r k.column with hkept | ⟨hnone, -⟩
        · rw [hkept] at hset
          obtain ⟨p, hp⟩ := hs.leads i r hr k hk hset
          refine ⟨p, ?_, howner ▸ hs.fence i r hr k hk p hp⟩
          rw [follow, hkept]
          exact hp
        · exact absurd hnone hset
    · exact .inl (by rwa [hsame i r hr howner])

end Writes
end FastKit.Relational
