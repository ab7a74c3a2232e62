import FastKit.Transaction.Table

/-! # What a session keeps of the rows it read

A session keeps every row it read. Reading a row again answers the one it keeps, an attribute
that is set is set in memory, and a flush writes the attributes that differ from what the
session loaded, whatever the table says by then.
-/

namespace FastKit.Transaction

/-- A row as a session loaded it and as it is in memory now. -/
structure Copy (α : Type) where
  loaded : α
  now : α

/-- How a flush writes a row from the copy of it. Its id and its keys stay as they are. -/
class Mapped (α : Type) {κ : outParam Type} [Keyed α κ] where
  write : Copy α → α → α
  still : ∀ c, Still (write c)

variable {α κ V : Type} [Keyed α κ]

/-- An attribute is written where it is not the one that was loaded. -/
def Attribute [Mapped α] [DecidableEq V] (get : α → V) : Prop :=
  ∀ (c : Copy α) (r : α),
    get (Mapped.write c r) = if get c.now = get c.loaded then get r else get c.now

/-- The rows a session has in memory by their ids. -/
abbrev IdentityMap (α : Type) := ℕ → Option (Copy α)

namespace IdentityMap
variable {m : IdentityMap α} {p : α → Bool} {s t : Table α} {f : α → α} {r b : α} {id : ℕ}

/-- The row a read answers under an id. -/
def answers (p : α → Bool) (s : Table α) (id : ℕ) : Option α := (s.get id).filter p

/-- A read of the rows `p` holds of. What is in memory stays as it is. -/
def select (p : α → Bool) (s : Table α) (m : IdentityMap α) : IdentityMap α := fun id =>
  m id <|> (answers p s id).map fun r => ⟨r, r⟩

/-- Sets `f` of the rows a read answered. -/
def assign (p : α → Bool) (f : α → α) (s : Table α) (m : IdentityMap α) : IdentityMap α := fun id =>
  if (answers p s id).isSome then (m id).map fun c => { c with now := f c.now } else m id

/-- Reads the rows `p` holds of and sets `f` of each. -/
def rewrite (p : α → Bool) (f : α → α) (s : Table α) (m : IdentityMap α) : IdentityMap α :=
  assign p f s (select p s m)

/-- The copies after what they say was written. -/
def synced (m : IdentityMap α) : IdentityMap α := fun id => (m id).map fun c => ⟨c.now, c.now⟩

variable [Mapped α]

def written (m : IdentityMap α) (r : α) : α :=
  (m (Keyed.id r)).elim r (Mapped.write · r)

theorem still_written (m : IdentityMap α) : Still (written m) := by
  intro r
  unfold written
  cases m (Keyed.id r) with
  | none => exact ⟨rfl, rfl⟩
  | some c => exact Mapped.still c r

def flush (m : IdentityMap α) (t : Table α) : Table α :=
  t.modify (fun _ => true) (written m) (still_written m)

theorem mem_flush : r ∈ flush m t ↔ ∃ b ∈ t, written m b = r := by
  simp [flush, Table.mem_modify]

/-- What a session has of a row it read, as it was loaded. -/
def loaded (m : IdentityMap α) (r : α) : α := ((m (Keyed.id r)).getD ⟨r, r⟩).loaded

/-- An attribute a session sets is set in the table: where the row was read, the one it had
loaded is another one or the table has it already, and where it was not read, it is left so. -/
def Lands (get : α → V) (x : V) (p : α → Bool) (s : Table α) (m : IdentityMap α) (b : α) : Prop :=
  match answers p s (Keyed.id b) with
  | some r => get (loaded m r) ≠ x ∨ get b = x
  | none => get (written m b) = x

variable {get : α → V} {x : V}

theorem written_rewrite [DecidableEq V] (hget : Attribute get) (hf : ∀ r, get (f r) = x) :
    get (written (rewrite p f s m) b) = x ↔ Lands get x p s m b := by
  unfold Lands
  cases hr : answers p s (Keyed.id b) with
  | none =>
    have hsame : rewrite p f s m (Keyed.id b) = m (Keyed.id b) := by
      simp [rewrite, assign, select, hr]
    rw [written, hsame]
    rfl
  | some r =>
    have hid : Keyed.id r = Keyed.id b :=
      Table.id_of_get (Option.filter_eq_some_iff.mp hr).1
    have hcopy : rewrite p f s m (Keyed.id b) =
        some ⟨loaded m r, f ((m (Keyed.id b)).getD ⟨r, r⟩).now⟩ := by
      unfold rewrite assign select loaded
      rw [hr, hid]
      cases m (Keyed.id b) <;> rfl
    rw [written, hcopy]
    change get (Mapped.write _ b) = x ↔ _
    rw [hget, hf]
    dsimp only
    split_ifs with hsame
    · simp [← hsame]
    · simp [Ne.symm hsame]

/-- An attribute that a session sets of the rows it reads is in the table as it was set. -/
theorem flush_rewrite [DecidableEq V] (hget : Attribute get) (hf : ∀ r, get (f r) = x) {q : α → Bool}
    (hq : ∀ (c : Copy α) r, q (Mapped.write c r) = q r) :
    (∀ a ∈ flush (rewrite p f s m) t, q a = true → get a = x) ↔
      ∀ b ∈ t, q b = true → Lands get x p s m b := by
  have hsame : ∀ (m : IdentityMap α) b, q (written m b) = q b := by
    intro m b
    unfold written
    cases m (Keyed.id b) with
    | none => rfl
    | some c => exact hq c b
  constructor
  · intro h b hb hqb
    rw [← written_rewrite hget hf]
    exact h _ (mem_flush.mpr ⟨b, hb, rfl⟩) ((hsame _ b).trans hqb)
  · intro h a ha hqa
    obtain ⟨b, hb, rfl⟩ := mem_flush.mp ha
    exact (written_rewrite hget hf).mpr (h b hb ((hsame _ b).symm.trans hqa))

/-- A session that has nothing older than the table sets what it means to. -/
theorem lands_of_current (hp : p b = true) (hb : b ∈ t)
    (hmap : ∀ c, m (Keyed.id b) = some c → get c.loaded = get b) : Lands get x p t m b := by
  have hanswer : answers p t (Keyed.id b) = some b := by
    rw [answers, Table.get_of_mem hb, Option.filter_some, if_pos hp]
  unfold Lands loaded
  rw [hanswer]
  dsimp only
  cases hc : m (Keyed.id b) with
  | none => exact ne_or_eq (get b) x
  | some c =>
    rw [Option.getD_some, hmap c hc]
    exact ne_or_eq (get b) x

/-- A session that has nothing in memory writes what it sets where it is. -/
theorem flush_rewrite_new (h : Still f) (hf : ∀ r, Mapped.write ⟨r, f r⟩ r = f r) :
    flush (rewrite p f t fun _ => none) t = t.modify p f h := by
  have hrows : ∀ r ∈ t.rows, written (rewrite p f t fun _ => none) r = if p r then f r else r := by
    intro r hr
    have hid : t.get (Keyed.id r) = some r := Table.get_of_mem hr
    unfold written rewrite assign select answers
    rw [hid]
    by_cases hp : p r = true
    · simp [Option.filter_some, hp, hf]
    · simp [Option.filter_some, hp]
  obtain ⟨rows, next, apart, fresh⟩ := t
  simp only [flush, Table.modify, Table.mk.injEq, and_true, if_true]
  exact List.map_congr_left hrows

end IdentityMap
end FastKit.Transaction
