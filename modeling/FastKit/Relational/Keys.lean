import FastKit.Transaction.Table
import Mathlib.Data.List.Nodup
import Mathlib.Logic.Function.Basic

/-! # Tables that point at one another

A row points at rows of other tables by its keys, and a key says what becomes of the row that
holds it when the row it points at goes. A `DELETE` takes what points at its rows and falls with
them, empties what may be empty, and is refused where a row may not be left pointing at nothing.
-/

namespace FastKit.Relational
open Transaction

/-- What becomes of a row when the one it points at goes. -/
inductive OnDelete where
  | cascade | restrict | setNull
  deriving DecidableEq

structure Key (ι κ : Type) where
  column : κ
  target : ι
  onDelete : OnDelete
  nullable : Bool
  deriving DecidableEq

/-- A row by the columns that point at others and the rest of what it holds. -/
structure Record (κ δ : Type) where
  id : ℕ
  refs : κ → Option ℕ
  rest : δ

instance {κ δ : Type} : Keyed (Record κ δ) Unit := ⟨(·.id), fun _ => []⟩

/-- The keys of each table. Following them ends, no column holds two of them, and a key that is
emptied may be empty. -/
structure Schema (ι κ : Type) where
  tables : List ι
  complete : ∀ i, i ∈ tables
  keys : ι → List (Key ι κ)
  rank : ι → ℕ
  ranked : ∀ i, ∀ k ∈ keys i, rank k.target < rank i
  nodup : ∀ i, ((keys i).map Key.column).Nodup
  emptied : ∀ i, ∀ k ∈ keys i, k.onDelete = .setNull → k.nullable = true

abbrev Tables (ι κ δ : Type) := ι → Table (Record κ δ)

variable {ι κ δ : Type} {S : Schema ι κ} {s t : Tables ι κ δ}
  {roots : ι → ℕ → Bool} {i : ι} {k l : Key ι κ} {r p : Record κ δ} {lenient : Bool} {n : ℕ}

/-- The row a key of a row leads to. -/
def follow (s : Tables ι κ δ) (r : Record κ δ) (k : Key ι κ) : Option (Record κ δ) :=
  (r.refs k.column).bind (s k.target).get

theorem follow_eq_some : follow s r k = some p ↔ p ∈ s k.target ∧ r.refs k.column = some p.id := by
  rw [follow, Option.bind_eq_some_iff]
  constructor
  · rintro ⟨id, href, hget⟩
    obtain ⟨hp, rfl⟩ := Table.get_eq_some_iff.mp hget
    exact ⟨hp, href⟩
  · rintro ⟨hp, href⟩
    exact ⟨p.id, href, Table.get_of_mem hp⟩

theorem Schema.eq_of_column (hk : k ∈ S.keys i) (hl : l ∈ S.keys i) (h : k.column = l.column) : k = l :=
  List.inj_on_of_nodup_map (S.nodup i) hk hl h

/-- Every key of every row leads to a row, and is set where it may not be empty. -/
structure Sound (S : Schema ι κ) (s : Tables ι κ δ) : Prop where
  leads : ∀ i, ∀ r ∈ s i, ∀ k ∈ S.keys i, r.refs k.column ≠ none → ∃ p, follow s r k = some p
  given : ∀ i, ∀ r ∈ s i, ∀ k ∈ S.keys i, k.nullable = false → r.refs k.column ≠ none

section Falling
variable (S) (s) (roots : ι → ℕ → Bool)

/-- Whether a row is one of the roots or falls with one, looking `n` keys far. -/
def fallsWithin : ℕ → ι → Record κ δ → Bool
  | 0, i, r => roots i r.id
  | n + 1, i, r => roots i r.id || (S.keys i).any (fun k =>
      k.onDelete = .cascade && (follow s r k).any (fallsWithin n k.target))

def falls (i : ι) (r : Record κ δ) : Bool := fallsWithin S s roots (S.rank i) i r

/-- Whether a row may not be left pointing at a row that falls. Where the database is lenient, one
that falls with the statement too is not asked. -/
def restricts (lenient : Bool) (i : ι) (r : Record κ δ) : Bool :=
  !(lenient && falls S s roots i r) && (S.keys i).any (fun k =>
    k.onDelete = .restrict && (follow s r k).any (falls S s roots k.target))

variable [DecidableEq κ]

/-- A row without the keys that led to rows that fall. -/
def unpointed (i : ι) (r : Record κ δ) : Record κ δ :=
  { r with refs := fun column => if (S.keys i).any (fun k => k.column = column && k.onDelete = .setNull &&
      (follow s r k).any (falls S s roots k.target)) then none else r.refs column }

theorem still_unpointed (i : ι) : Still (unpointed (δ := δ) S s roots i) := fun _ => ⟨rfl, rfl⟩

/-- What a `DELETE` leaves. -/
def swept : Tables ι κ δ := fun i =>
  ((s i).erase (falls S s roots i)).modify (fun _ => true) (unpointed S s roots i)
    (still_unpointed S s roots i)

/-- `DELETE` of the roots. -/
def delete (lenient : Bool) : Option (Tables ι κ δ) :=
  if S.tables.any (fun i => (s i).rows.any (restricts S s roots lenient i)) then none
  else some (swept S s roots)

end Falling

theorem keys_nil (h : S.rank i = 0) : S.keys i = [] := by
  refine List.eq_nil_iff_forall_not_mem.mpr fun k hk => ?_
  have hlt := S.ranked i k hk
  omega

/-- Looking farther than the keys lead finds nothing more. -/
theorem fallsWithin_eq {m : ℕ} (hn : S.rank i ≤ n) (hm : S.rank i ≤ m) :
    fallsWithin S s roots n i r = fallsWithin S s roots m i r := by
  induction n generalizing m i r with
  | zero =>
    have hkeys := keys_nil (Nat.le_zero.mp hn)
    cases m <;> simp [fallsWithin, hkeys]
  | succ n ih =>
    cases m with
    | zero =>
      have hkeys := keys_nil (Nat.le_zero.mp hm)
      simp [fallsWithin, hkeys]
    | succ m =>
      have hsame : ∀ k ∈ S.keys i, fallsWithin S s roots n k.target = fallsWithin S s roots m k.target := by
        intro k hk
        have hlt := S.ranked i k hk
        funext p
        exact ih (by omega) (by omega)
      simp only [fallsWithin]
      congr 1
      rw [Bool.eq_iff_iff]
      simp only [List.any_eq_true]
      exact exists_congr fun k => and_congr_right fun hk => by rw [hsame k hk]

/-- A row falls where it is a root, or a key it falls by leads to one that falls. -/
theorem falls_iff : falls S s roots i r = true ↔ roots i r.id = true ∨
    ∃ k ∈ S.keys i, k.onDelete = .cascade ∧ ∃ p, follow s r k = some p ∧
      falls S s roots k.target p = true := by
  have hone : falls S s roots i r = fallsWithin S s roots (S.rank i + 1) i r :=
    fallsWithin_eq (Nat.le_refl _) (Nat.le_succ _)
  rw [hone, fallsWithin, Bool.or_eq_true, List.any_eq_true]
  refine or_congr_right (exists_congr fun k => and_congr_right fun hk => ?_)
  have hlt := S.ranked i k hk
  rw [Bool.and_eq_true, decide_eq_true_eq, Option.any_eq_true]
  refine and_congr_right fun _ => exists_congr fun p => and_congr_right fun _ => ?_
  rw [fallsWithin_eq (Nat.le_of_lt hlt) (Nat.le_refl _), falls]

theorem restricts_iff : restricts S s roots lenient i r = true ↔
    (lenient = true → falls S s roots i r = false) ∧ ∃ k ∈ S.keys i, k.onDelete = .restrict ∧
      ∃ p, follow s r k = some p ∧ falls S s roots k.target p = true := by
  simp only [restricts, Bool.and_eq_true, Bool.not_eq_true', Bool.and_eq_false_imp, List.any_eq_true,
    decide_eq_true_eq, Option.any_eq_true]

variable [DecidableEq κ]

theorem delete_eq_some : delete S s roots lenient = some t ↔
    t = swept S s roots ∧ ∀ i, ∀ r ∈ s i, restricts S s roots lenient i r = false := by
  have hany : S.tables.any (fun i => (s i).rows.any (restricts S s roots lenient i)) = true ↔
      ∃ i, ∃ r ∈ s i, restricts S s roots lenient i r = true := by
    simp only [List.any_eq_true, Table.mem_rows]
    exact exists_congr fun i => and_iff_right (S.complete i)
  unfold delete
  split_ifs with h
  · obtain ⟨i, r, hr, hres⟩ := hany.mp h
    refine iff_of_false (by simp) fun hall => ?_
    rw [hall.2 i r hr] at hres
    cases hres
  · rw [Option.some.injEq, eq_comm, iff_self_and]
    rintro -
    intro i r hr
    exact Bool.eq_false_iff.mpr fun hres => h (hany.mpr ⟨i, r, hr, hres⟩)

theorem mem_swept : r ∈ swept S s roots i ↔
    ∃ a ∈ s i, falls S s roots i a = false ∧ unpointed S s roots i a = r := by
  simp only [swept, Table.mem_modify, Table.mem_erase, if_true, and_assoc]

/-- A key of a row that stays leads where it led, unless it is emptied. -/
theorem unpointed_refs (roots : ι → ℕ → Bool) (i : ι) (r : Record κ δ) (column : κ) :
    (unpointed S s roots i r).refs column = r.refs column ∨
    ((unpointed S s roots i r).refs column = none ∧ ∃ k ∈ S.keys i, k.column = column ∧
      k.onDelete = .setNull ∧ ∃ p, follow s r k = some p ∧ falls S s roots k.target p = true) := by
  simp only [unpointed]
  split_ifs with h
  · refine .inr ⟨rfl, ?_⟩
    simpa only [List.any_eq_true, Bool.and_eq_true, decide_eq_true_eq, Option.any_eq_true, and_assoc]
      using h
  · exact .inl rfl

theorem unpointed_of_ne (hk : k ∈ S.keys i) (h : k.onDelete ≠ .setNull) :
    (unpointed S s roots i r).refs k.column = r.refs k.column := by
  rcases unpointed_refs (S := S) (s := s) roots i r k.column with
    hsame | ⟨-, l, hl, hcolumn, hnull, -⟩
  · exact hsame
  · exact absurd (S.eq_of_column hl hk hcolumn ▸ hnull) h

/-- Nothing is left pointing at a row that went. -/
theorem Sound.delete (h : Sound S s) (hdelete : delete S s roots lenient = some t) : Sound S t := by
  obtain ⟨rfl, hfree⟩ := delete_eq_some.mp hdelete
  refine ⟨fun i r' hr' k hk hset => ?_, fun i r' hr' k hk hkept => ?_⟩
  · obtain ⟨r, hr, hstays, rfl⟩ := mem_swept.mp hr'
    rcases unpointed_refs (S := S) (s := s) roots i r k.column with
      hsame | ⟨hnone, -⟩
    · rw [hsame] at hset
      obtain ⟨p, hp⟩ := h.leads i r hr k hk hset
      have hpfalls : falls S s roots k.target p = false := by
        refine Bool.eq_false_iff.mpr fun hpfalls => ?_
        cases haction : k.onDelete with
        | cascade =>
          have hfalls := falls_iff.mpr (.inr ⟨k, hk, haction, p, hp, hpfalls⟩)
          rw [hstays] at hfalls
          cases hfalls
        | restrict =>
          have hres : restricts S s roots lenient i r = true :=
            restricts_iff.mpr ⟨fun _ => hstays, k, hk, haction, p, hp, hpfalls⟩
          rw [hfree i r hr] at hres
          cases hres
        | setNull =>
          have hnull : (unpointed S s roots i r).refs k.column = none := by
            simp only [unpointed]
            refine if_pos (List.any_eq_true.mpr ⟨k, hk, ?_⟩)
            simp [haction, hp, hpfalls]
          exact hset (hsame.symm.trans hnull)
      obtain ⟨hmem, href⟩ := follow_eq_some.mp hp
      exact ⟨_, follow_eq_some.mpr ⟨mem_swept.mpr ⟨p, hmem, hpfalls, rfl⟩, hsame.trans href⟩⟩
    · exact absurd hnone hset
  · obtain ⟨r, hr, -, rfl⟩ := mem_swept.mp hr'
    rw [unpointed_of_ne hk fun hnull => ?_]
    · exact h.given i r hr k hk hkept
    · rw [S.emptied i k hk hnull] at hkept
      cases hkept

end FastKit.Relational
