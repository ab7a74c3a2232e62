import Mathlib.Data.List.Pairwise
import Mathlib.Tactic.Common

/-! # Tables with unique keys

A table carries the proof that its ids are distinct, below the next id it hands out,
and that no two rows share a key. A write that keeps every id and key is total; an
insert or a write that moves keys is refused where a key is taken.
-/

namespace FastKit.Transaction

/-- Rows with an id and the entries they hold in the unique indexes of their table. -/
class Keyed (α : Type) (κ : outParam Type) where
  id : α → ℕ
  keys : α → List κ

/-- Two rows of one table: different ids and no key in common. -/
def Apart {α κ : Type} [Keyed α κ] (a b : α) : Prop :=
  Keyed.id a ≠ Keyed.id b ∧ ∀ k ∈ Keyed.keys a, k ∉ Keyed.keys b

instance {α κ : Type} [Keyed α κ] [DecidableEq κ] (a b : α) : Decidable (Apart a b) :=
  inferInstanceAs (Decidable (_ ∧ _))

instance {α κ : Type} [Keyed α κ] : Std.Symm (Apart (α := α)) :=
  ⟨fun _ _ h => ⟨Ne.symm h.1, fun k hb ha => h.2 k ha hb⟩⟩

/-- A rewrite of a row that moves neither its id nor its keys. -/
def Still {α κ : Type} [Keyed α κ] (f : α → α) : Prop :=
  ∀ r, Keyed.id (f r) = Keyed.id r ∧ Keyed.keys (f r) = Keyed.keys r

/-- The rows of a table and the id the next row gets. -/
structure Table (α : Type) {κ : Type} [Keyed α κ] where
  rows : List α
  next : ℕ
  apart : rows.Pairwise Apart
  fresh : ∀ r ∈ rows, Keyed.id r < next

namespace Table
variable {α κ : Type} [Keyed α κ] {t u : Table α} {p : α → Bool} {f : α → α} {r : α} {i : ℕ}

instance : Membership α (Table α) := ⟨fun t r => r ∈ t.rows⟩

@[simp] theorem mem_rows : r ∈ t.rows ↔ r ∈ t := Iff.rfl

instance {P : α → Prop} [DecidablePred P] : Decidable (∀ r ∈ t, P r) :=
  inferInstanceAs (Decidable (∀ r ∈ t.rows, P r))

instance {P : α → Prop} [DecidablePred P] : Decidable (∃ r ∈ t, P r) :=
  inferInstanceAs (Decidable (∃ r ∈ t.rows, P r))

def empty : Table α := ⟨[], 0, List.Pairwise.nil, by simp⟩

/-- The table has no row with the id of `r`. -/
def Lacks (t : Table α) (r : α) : Prop := ∀ a ∈ t, Keyed.id a ≠ Keyed.id r

instance {r : α} : Decidable (t.Lacks r) := inferInstanceAs (Decidable (∀ a ∈ t, _))

@[simp] theorem not_mem_empty : r ∉ (empty : Table α) := List.not_mem_nil

/-- The first row `p` holds of. -/
def find (t : Table α) (p : α → Bool) : Option α := t.rows.find? p

/-- Every row `p` holds of, in the order of the table. -/
def select (t : Table α) (p : α → Bool) : List α := t.rows.filter p

def get (t : Table α) (i : ℕ) : Option α := t.find (fun r => Keyed.id r == i)

/-- `UPDATE` of the rows `p` holds of, where ids and keys stay as they are. -/
def modify (t : Table α) (p : α → Bool) (f : α → α) (h : Still f) : Table α where
  rows := t.rows.map (fun r => if p r then f r else r)
  next := t.next
  apart := by
    rw [List.pairwise_map]
    refine t.apart.imp fun {a b} hab => ?_
    split_ifs <;> simpa only [Apart, (h _).1, (h _).2] using hab
  fresh := by
    intro r hr
    obtain ⟨a, ha, rfl⟩ := List.mem_map.mp hr
    split_ifs
    · rw [(h a).1]; exact t.fresh a ha
    · exact t.fresh a ha

/-- `INSERT` of the row `make` builds for the next id, refused where a key is taken. -/
def insert [DecidableEq κ] (t : Table α) (make : ℕ → α) : Option (α × Table α) :=
  if h : Keyed.id (make t.next) = t.next ∧ ∀ a ∈ t.rows, Apart a (make t.next) then
    some (make t.next, {
      rows := t.rows ++ [make t.next]
      next := t.next + 1
      apart := List.pairwise_append.mpr
        ⟨t.apart, List.pairwise_singleton _ _, fun a ha b hb => by
          rw [List.mem_singleton.mp hb]; exact h.2 a ha⟩
      fresh := by
        intro r hr
        rcases List.mem_append.mp hr with hr | hr
        · exact Nat.lt_succ_of_lt (t.fresh r hr)
        · rw [List.mem_singleton.mp hr, h.1]; exact Nat.lt_succ_self _ })
  else none

/-- `UPDATE` of the rows `p` holds of, refused where the keys it writes are taken. -/
def alter [DecidableEq κ] (t : Table α) (p : α → Bool) (f : α → α) : Option (Table α) :=
  if h : (t.rows.map (fun r => if p r then f r else r)).Pairwise Apart ∧
      ∀ r ∈ t.rows.map (fun r => if p r then f r else r), Keyed.id r < t.next then
    some ⟨t.rows.map (fun r => if p r then f r else r), t.next, h.1, h.2⟩
  else none

/-- `DELETE` of the rows `p` holds of. -/
def erase (t : Table α) (p : α → Bool) : Table α where
  rows := t.rows.filter (fun r => !p r)
  next := t.next
  apart := t.apart.filter _
  fresh := fun r hr => t.fresh r (List.mem_filter.mp hr).1

@[simp] theorem mem_erase : r ∈ t.erase p ↔ r ∈ t ∧ p r = false := by
  rw [← mem_rows]
  simp [erase]

/-- Tables of the same rows that hand out the same id. -/
theorem ext_rows {u : Table α} (hrows : t.rows = u.rows) (hnext : t.next = u.next) : t = u := by
  obtain ⟨rows, next, apart, fresh⟩ := t
  obtain ⟨rows', next', apart', fresh'⟩ := u
  obtain rfl : rows = rows' := hrows
  obtain rfl : next = next' := hnext
  rfl

theorem erase_congr {q : α → Bool} (h : ∀ r ∈ t, p r = q r) : t.erase p = t.erase q :=
  ext_rows (List.filter_congr fun r hr => by rw [h r hr]) rfl

theorem erase_erase {q : α → Bool} : (t.erase p).erase q = t.erase (fun r => p r || q r) := by
  refine ext_rows ?_ rfl
  simp only [erase, List.filter_filter, Bool.not_or, Bool.and_comm]

theorem erase_none (h : ∀ r ∈ t, p r = false) : t.erase p = t := by
  refine ext_rows (List.filter_eq_self.mpr fun r hr => ?_) rfl
  rw [h r hr, Bool.not_false]

theorem mem_of_find (h : t.find p = some r) : r ∈ t := List.mem_of_find?_eq_some h

theorem find_holds (h : t.find p = some r) : p r = true := List.find?_some h

theorem find_none (h : t.find p = none) (hr : r ∈ t) : p r = false := by
  simpa using List.find?_eq_none.mp h r hr

theorem find_isSome (hr : r ∈ t) (hp : p r = true) : ∃ a, t.find p = some a := by
  cases h : t.find p with
  | none => rw [find_none h hr] at hp; cases hp
  | some a => exact ⟨a, rfl⟩

theorem isSome_find : (t.find p).isSome = true ↔ ∃ r ∈ t, p r = true := List.find?_isSome

theorem mem_of_get (h : t.get i = some r) : r ∈ t := mem_of_find h

theorem id_of_get (h : t.get i = some r) : Keyed.id r = i := by simpa using find_holds h

@[simp] theorem mem_select : r ∈ t.select p ↔ r ∈ t ∧ p r = true := List.mem_filter

theorem apart_of_ne {a b : α} (ha : a ∈ t) (hb : b ∈ t) (h : a ≠ b) : Apart a b :=
  t.apart.forall ha hb h

theorem eq_of_id {a b : α} (ha : a ∈ t) (hb : b ∈ t) (h : Keyed.id a = Keyed.id b) : a = b := by
  by_contra hab
  exact (apart_of_ne ha hb hab).1 h

/-- The unique index: a key belongs to one row. -/
theorem eq_of_key {a b : α} (ha : a ∈ t) (hb : b ∈ t) {k : κ} (hka : k ∈ Keyed.keys a)
    (hkb : k ∈ Keyed.keys b) : a = b := by
  by_contra hab
  exact (apart_of_ne ha hb hab).2 k hka hkb

theorem get_of_mem (hr : r ∈ t) : t.get (Keyed.id r) = some r := by
  obtain ⟨a, ha⟩ := find_isSome (p := fun a => Keyed.id a == Keyed.id r) hr (by simp)
  rw [get, ha, eq_of_id (mem_of_find ha) hr (by simpa using find_holds ha)]

theorem get_eq_some_iff : t.get i = some r ↔ r ∈ t ∧ Keyed.id r = i := by
  constructor
  · exact fun h => ⟨mem_of_get h, id_of_get h⟩
  · rintro ⟨hr, rfl⟩; exact get_of_mem hr

theorem nodup_rows (t : Table α) : t.rows.Nodup :=
  t.apart.imp fun h heq => h.1 (congrArg Keyed.id heq)

theorem select_eq_nil (h : ∀ a ∈ t, p a = false) : t.select p = [] :=
  List.filter_eq_nil_iff.mpr fun a ha => by simp [h a ha]

theorem select_eq_singleton (hr : r ∈ t) (hp : p r = true) (hone : ∀ a ∈ t, p a = true → a = r) :
    t.select p = [r] := by
  refine List.perm_singleton.mp ((List.perm_ext_iff_of_nodup (t.nodup_rows.filter _)
    (List.pairwise_singleton _ r)).mpr fun a => ?_)
  rw [List.mem_filter, List.mem_singleton]
  constructor
  · exact fun h => hone a h.1 h.2
  · rintro rfl
    exact ⟨hr, hp⟩

/-- What a statement that names an id meets is the row of that id, where it is as asked. -/
theorem select_id : t.select (fun r => Keyed.id r == i && p r) = ((t.get i).filter p).toList := by
  cases hget : t.get i with
  | none =>
    refine select_eq_nil fun r hr => ?_
    have hne := find_none hget hr
    simp [hne]
  | some r =>
    obtain ⟨hr, hid⟩ := get_eq_some_iff.mp hget
    by_cases hp : p r = true
    · rw [Option.filter_some_pos hp]
      refine select_eq_singleton hr (by simp [hid, hp]) fun a ha h => ?_
      rw [Bool.and_eq_true, beq_iff_eq] at h
      exact eq_of_id ha hr (h.1.trans hid.symm)
    · rw [Option.filter_some_neg (by simpa using hp)]
      refine select_eq_nil fun a ha => ?_
      by_cases haid : Keyed.id a = i
      · obtain rfl := eq_of_id ha hr (haid.trans hid.symm)
        simp [hp]
      · simp [haid]

/-- The rows of `u` under ids that `t` has not. -/
def added (t u : Table α) : List α := u.select (fun r => decide (t.Lacks r))

theorem added_eq_nil (h : ∀ r ∈ u, r ∈ t) : t.added u = [] :=
  select_eq_nil fun r hr => decide_eq_false fun hlacks => hlacks r (h r hr) rfl

theorem mem_modify (h : Still f) :
    r ∈ t.modify p f h ↔ ∃ a ∈ t, (if p a then f a else a) = r := List.mem_map

theorem mem_modify_of_mem (h : Still f) (hr : r ∈ t) :
    (if p r then f r else r) ∈ t.modify p f h := (mem_modify h).mpr ⟨r, hr, rfl⟩

/-- A rewrite that meets no row leaves the table as it is. -/
theorem modify_none (h : Still f) (hp : ∀ r ∈ t, p r = false) : t.modify p f h = t := by
  have hrows : t.rows.map (fun r => if p r then f r else r) = t.rows := by
    conv_rhs => rw [← List.map_id t.rows]
    refine List.map_congr_left fun r hr => ?_
    simp [hp r hr]
  obtain ⟨rows, next, apart, fresh⟩ := t
  simp only [modify, Table.mk.injEq, and_true]
  exact hrows

/-- Every row has its rewritten one. -/
theorem exists_modify (h : Still f) (Q : α → α → Prop) (hf : ∀ a, Q a (f a)) (hr : ∀ a, Q a a)
    {a : α} (ha : a ∈ t) : ∃ a' ∈ t.modify p f h, Q a a' := by
  refine ⟨_, mem_modify_of_mem h ha, ?_⟩
  split_ifs
  · exact hf a
  · exact hr a

theorem still_ite (h : Still f) (p : α → Bool) : Still (fun r => if p r then f r else r) := by
  intro r
  dsimp only
  split_ifs
  · exact h r
  · exact ⟨rfl, rfl⟩

theorem find_modify (h : Still f) {q : α → Bool} (hq : ∀ r, q (f r) = q r) :
    (t.modify p f h).find q = (t.find q).map (fun r => if p r then f r else r) := by
  simp only [find, modify, List.find?_map, Function.comp_def]
  congr 2
  funext r
  split_ifs
  · exact hq r
  · rfl

theorem get_modify (h : Still f) :
    (t.modify p f h).get i = (t.get i).map (fun r => if p r then f r else r) :=
  find_modify h fun r => by rw [(h r).1]

theorem insert_eq_some [DecidableEq κ] {make : ℕ → α} (h : t.insert make = some (r, u)) :
    r = make t.next ∧ Keyed.id r = t.next ∧ (∀ a ∈ t, Apart a r) ∧ u.rows = t.rows ++ [r] ∧
      u.next = t.next + 1 := by
  unfold insert at h
  split at h
  · rename_i hok
    obtain ⟨rfl, rfl⟩ := Prod.mk.inj (Option.some.inj h)
    exact ⟨rfl, hok.1, hok.2, rfl, rfl⟩
  · cases h

theorem mem_insert [DecidableEq κ] {make : ℕ → α} (h : t.insert make = some (r, u)) {a : α} :
    a ∈ u ↔ a ∈ t ∨ a = r := by
  rw [← mem_rows, (insert_eq_some h).2.2.2.1, List.mem_append, List.mem_singleton, mem_rows]

/-- An insert adds the row it inserts. -/
theorem added_insert [DecidableEq κ] {make : ℕ → α} (h : t.insert make = some (r, u)) :
    t.added u = [r] := by
  refine select_eq_singleton ((mem_insert h).mpr (.inr rfl))
    (decide_eq_true fun a ha => ((insert_eq_some h).2.2.1 a ha).1) fun a ha hlacks => ?_
  exact ((mem_insert h).mp ha).resolve_left fun hold => of_decide_eq_true hlacks a hold rfl

theorem find_insert [DecidableEq κ] {make : ℕ → α} (h : t.insert make = some (r, u))
    (q : α → Bool) : u.find q = (t.find q).or (if q r then some r else none) := by
  rw [find, (insert_eq_some h).2.2.2.1, List.find?_append, List.find?_singleton]
  rfl

theorem insert_eq_none [DecidableEq κ] {make : ℕ → α} (h : t.insert make = none)
    (hid : Keyed.id (make t.next) = t.next) : ∃ a ∈ t, ¬Apart a (make t.next) := by
  by_contra hall
  push Not at hall
  unfold insert at h
  rw [dif_pos ⟨hid, hall⟩] at h
  cases h

/-- An insert is refused exactly where a row has a key of it. -/
theorem insert_isSome [DecidableEq κ] {make : ℕ → α} (hid : Keyed.id (make t.next) = t.next) :
    (t.insert make).isSome = true ↔ ∀ a ∈ t, ∀ k ∈ Keyed.keys a, k ∉ Keyed.keys (make t.next) := by
  constructor
  · intro h a ha
    obtain ⟨p, hp⟩ := Option.isSome_iff_exists.mp h
    obtain ⟨hrow, -, hapart, -⟩ := insert_eq_some hp
    exact hrow ▸ (hapart a ha).2
  · intro h
    unfold insert
    rw [dif_pos]
    · rfl
    · exact ⟨hid, fun a ha => ⟨fun heq => Nat.ne_of_lt (t.fresh a ha) (heq.trans hid), h a ha⟩⟩

theorem get_insert [DecidableEq κ] {make : ℕ → α} (h : t.insert make = some (r, u)) :
    u.get i = if i = t.next then some r else t.get i := by
  obtain ⟨-, hid, -, hrows, -⟩ := insert_eq_some h
  split_ifs with hi
  · exact get_eq_some_iff.mpr ⟨(mem_insert h).mpr (.inr rfl), by rw [hid, hi]⟩
  · simp only [get, find, hrows, List.find?_append]
    cases hg : t.rows.find? (fun r => Keyed.id r == i) with
    | some a => rfl
    | none => simp [hid, Ne.symm hi]

theorem get_insert_of_get [DecidableEq κ] {make : ℕ → α} {a : α} (h : t.insert make = some (r, u))
    (ha : t.get i = some a) : u.get i = some a := by
  have hid : Keyed.id a = i := id_of_get ha
  have hlt : i < t.next := hid ▸ t.fresh a (mem_of_get ha)
  rw [get_insert h, if_neg (Nat.ne_of_lt hlt), ha]

theorem alter_eq_some [DecidableEq κ] (h : t.alter p f = some u) :
    u.rows = t.rows.map (fun r => if p r then f r else r) ∧ u.next = t.next := by
  unfold alter at h
  split at h
  · cases h; exact ⟨rfl, rfl⟩
  · cases h

theorem mem_alter [DecidableEq κ] (h : t.alter p f = some u) :
    r ∈ u ↔ ∃ a ∈ t, (if p a then f a else a) = r := by
  rw [← mem_rows, (alter_eq_some h).1]; exact List.mem_map

/-- A write that gives no row a key it had not is never refused. -/
theorem alter_isSome [DecidableEq κ] (hid : ∀ a, Keyed.id (f a) = Keyed.id a)
    (hkeys : ∀ a, ∀ k ∈ Keyed.keys (f a), k ∈ Keyed.keys a) : (t.alter p f).isSome = true := by
  have hrow : ∀ a, Keyed.id (if p a then f a else a) = Keyed.id a ∧
      ∀ k ∈ Keyed.keys (if p a then f a else a), k ∈ Keyed.keys a := by
    intro a
    split_ifs
    · exact ⟨hid a, hkeys a⟩
    · exact ⟨rfl, fun _ hk => hk⟩
  unfold alter
  rw [dif_pos]
  · rfl
  · refine ⟨List.pairwise_map.mpr (t.apart.imp fun {a b} hab => ?_), fun r hr => ?_⟩
    · refine ⟨?_, fun k hk hk' => hab.2 k ((hrow a).2 k hk) ((hrow b).2 k hk')⟩
      rw [(hrow a).1, (hrow b).1]
      exact hab.1
    · obtain ⟨a, ha, rfl⟩ := List.mem_map.mp hr
      exact (hrow a).1 ▸ t.fresh a ha

/-- A write of one row is refused exactly where another one has a key it writes. -/
theorem alter_one_isSome [DecidableEq κ] (hr : t.get i = some r)
    (hid : ∀ a, Keyed.id (f a) = Keyed.id a) :
    (t.alter (Keyed.id · == i) f).isSome = true ↔
      ∀ a ∈ t, Keyed.id a ≠ i → ∀ k ∈ Keyed.keys a, k ∉ Keyed.keys (f r) := by
  have hmem := mem_of_get hr
  have hri := id_of_get hr
  constructor
  · intro h a ha hai k hk hkr
    obtain ⟨u, hu⟩ := Option.isSome_iff_exists.mp h
    have hau : a ∈ u := (mem_alter hu).mpr ⟨a, ha, by simp [hai]⟩
    have hru : f r ∈ u := (mem_alter hu).mpr ⟨r, hmem, by simp [hri]⟩
    have hsame : a = f r := eq_of_key hau hru hk hkr
    exact hai (by rw [hsame, hid, hri])
  · intro h
    have hrow : ∀ a ∈ t, Keyed.id a = i → a = r := fun a ha hai =>
      eq_of_id ha hmem (hai.trans hri.symm)
    unfold alter
    rw [dif_pos]
    · rfl
    · refine ⟨List.pairwise_map.mpr (t.apart.imp_of_mem fun {a b} ha hb hab => ?_), ?_⟩
      · by_cases hai : Keyed.id a = i
        · obtain rfl := hrow a ha hai
          have hbi : Keyed.id b ≠ i := fun hbi => hab.1 (hai.trans hbi.symm)
          rw [if_pos (by simpa using hai), if_neg (by simpa using hbi)]
          exact ⟨hid a ▸ hab.1, fun k hk hkb => h b hb hbi k hkb hk⟩
        · rw [if_neg (by simpa using hai)]
          by_cases hbi : Keyed.id b = i
          · obtain rfl := hrow b hb hbi
            rw [if_pos (by simpa using hbi)]
            exact ⟨hid b ▸ hab.1, h a ha hai⟩
          · rwa [if_neg (by simpa using hbi)]
      · intro b hb
        obtain ⟨a, ha, rfl⟩ := List.mem_map.mp hb
        split_ifs
        · exact hid a ▸ t.fresh a ha
        · exact t.fresh a ha

/-- A write of the row of an id, where there is one, is refused exactly where another row has a key
it writes. -/
theorem alter_id_isSome [DecidableEq κ] (hid : ∀ a, Keyed.id (f a) = Keyed.id a) :
    (t.alter (Keyed.id · == i) f).isSome = true ↔ ∀ r ∈ t, Keyed.id r = i →
      ∀ a ∈ t, Keyed.id a ≠ i → ∀ k ∈ Keyed.keys a, k ∉ Keyed.keys (f r) := by
  cases hget : t.get i with
  | some r =>
    rw [alter_one_isSome hget hid]
    constructor
    · intro h b hb hbi
      obtain rfl := eq_of_id hb (mem_of_get hget) (hbi.trans (id_of_get hget).symm)
      exact h
    · exact fun h => h r (mem_of_get hget) (id_of_get hget)
  | none =>
    have hnone : ∀ r ∈ t, (Keyed.id r == i) = false := fun r hr =>
      find_none (p := fun r => Keyed.id r == i) hget hr
    have hrows : t.rows.map (fun r => if Keyed.id r == i then f r else r) = t.rows := by
      conv_rhs => rw [← List.map_id t.rows]
      refine List.map_congr_left fun r hr => ?_
      simp [hnone r hr]
    refine ⟨fun _ r hr hri => absurd (hnone r hr) (by simp [hri]), fun _ => ?_⟩
    unfold alter
    rw [dif_pos]
    · rfl
    · rw [hrows]
      exact ⟨t.apart, t.fresh⟩

end Table
end FastKit.Transaction
