import FastKit.Models.Store

/-! # What a flush would be refused

A session writes the transactions it renamed in memory where it next flushes, one row after the
other. Whether the database takes them depends on the names of its rows alone.
-/

namespace FastKit
open Transaction Transaction.Program

section
variable {α β : Type} {g : α → Option β} {key : α → ℕ} {key' : β → ℕ}

theorem filterMap_orderedInsert (hg : ∀ a p, g a = some p → key' p = key a) (a : α) {l : List α}
    (hl : l.Pairwise (key · ≤ key ·)) : (l.orderedInsert (key · ≤ key ·) a).filterMap g =
      (g a).elim (l.filterMap g) ((l.filterMap g).orderedInsert (key' · ≤ key' ·)) := by
  induction l with
  | nil => cases hga : g a <;> simp [hga]
  | cons b l ih =>
    obtain ⟨hb, hl⟩ := List.pairwise_cons.mp hl
    rw [List.orderedInsert_cons]
    split_ifs with hab
    · cases hga : g a with
      | none => rw [List.filterMap_cons_none hga, Option.elim_none]
      | some p =>
        rw [List.filterMap_cons_some hga, Option.elim_some]
        cases hrest : (b :: l).filterMap g with
        | nil => rfl
        | cons q rest =>
          have hmem : q ∈ (b :: l).filterMap g := hrest ▸ List.mem_cons_self
          obtain ⟨c, hc, hq⟩ := List.mem_filterMap.mp hmem
          have hbc : key b ≤ key c := by
            rcases List.mem_cons.mp hc with rfl | hc
            · exact le_rfl
            · exact hb c hc
          exact (List.orderedInsert_cons_of_le _ _ (hg a p hga ▸ hg c q hq ▸ hab.trans hbc)).symm
    · cases hgb : g b with
      | none => rw [List.filterMap_cons_none hgb, List.filterMap_cons_none hgb, ih hl]
      | some q =>
        rw [List.filterMap_cons_some hgb, List.filterMap_cons_some hgb, ih hl]
        cases hga : g a with
        | none => rfl
        | some p => exact (List.orderedInsert_of_not_le _ _ (hg a p hga ▸ hg b q hgb ▸ hab)).symm

/-- What is kept of a sorted list is what is kept, sorted. -/
theorem filterMap_insertionSort (hg : ∀ a p, g a = some p → key' p = key a) (l : List α) :
    (l.insertionSort (key · ≤ key ·)).filterMap g =
      (l.filterMap g).insertionSort (key' · ≤ key' ·) := by
  induction l with
  | nil => rfl
  | cons a l ih =>
    rw [List.insertionSort_cons, filterMap_orderedInsert hg a (List.pairwise_insertionSort _ l), ih]
    cases hga : g a with
    | none => rw [List.filterMap_cons_none hga, Option.elim_none]
    | some p => rw [List.filterMap_cons_some hga, Option.elim_some, List.insertionSort_cons]

end

/-- The transaction a copy has to write over its row. -/
def Loaded.pending (l : Loaded) : Option (ℕ × Option ℕ) :=
  if l.now.externalId = l.loaded.externalId then none else some (l.loaded.id, l.now.externalId)

theorem Loaded.pending_none {l : Loaded} :
    l.pending = none ↔ l.now.externalId = l.loaded.externalId := by
  unfold Loaded.pending
  split_ifs with h <;> simp [h]

theorem Loaded.pending_sync (id : ℕ) {f : Subscription → Subscription}
    (hf : ∀ r, (f r).id = r.id ∧ (f r).externalId = r.externalId) (l : Loaded) :
    (if l.loaded.id == id then ⟨f l.loaded, f l.now⟩ else l : Loaded).pending = l.pending := by
  split_ifs
  · simp [Loaded.pending, hf]
  · rfl

/-- What a session has to write over the transactions of its rows. -/
def Memory.pending (m : Memory) : List (ℕ × Option ℕ) := m.subscriptions.filterMap Loaded.pending

/-- What it has to write over those of the other rows. -/
def Memory.pendingBut (id : ℕ) (m : Memory) : List (ℕ × Option ℕ) :=
  (m.subscriptions.filter (·.loaded.id != id)).filterMap Loaded.pending

variable {m : Memory}

namespace Memory

theorem pending_eq_nil : m.pending = [] ↔
    ∀ l ∈ m.subscriptions, l.now.externalId = l.loaded.externalId := by
  simp only [pending, List.filterMap_eq_nil_iff, Loaded.pending_none]

/-- What is loaded is not to be written, and neither is what it was loaded over. -/
theorem pending_load (row : Subscription) : (m.load row).pending = m.pendingBut row.id :=
  List.filterMap_cons_none (Loaded.pending_none.mpr rfl)

theorem pendingBut_load (row : Subscription) :
    (m.load row).pendingBut row.id = m.pendingBut row.id := by
  simp [pendingBut, load]

theorem pendingBut_of_none {id : ℕ}
    (h : ∀ l ∈ m.subscriptions, l.loaded.id = id → l.pending = none) :
    m.pendingBut id = m.pending := by
  rw [pendingBut, pending, List.filterMap_filter]
  refine List.filterMap_congr fun l hl => ?_
  by_cases hid : l.loaded.id = id
  · rw [h l hl hid, if_neg (by simp [hid])]
  · rw [if_pos (by simpa using hid)]

theorem pending_assign (id : ℕ) {f : Subscription → Subscription}
    (hf : ∀ r, (f r).externalId = r.externalId) : (m.assign id f).pending = m.pending := by
  simp only [pending, assign, List.filterMap_map]
  refine List.filterMap_congr fun l _ => ?_
  simp only [Function.comp_apply, Loaded.pending]
  split_ifs with hid <;> simp_all

theorem pending_sync (id : ℕ) {f : Subscription → Subscription}
    (hf : ∀ r, (f r).id = r.id ∧ (f r).externalId = r.externalId) :
    (m.sync id f).pending = m.pending := by
  rw [pending, sync, List.filterMap_map]
  exact List.filterMap_congr fun l _ => Loaded.pending_sync id hf l

theorem pendingBut_sync (i id : ℕ) {f : Subscription → Subscription}
    (hf : ∀ r, (f r).id = r.id ∧ (f r).externalId = r.externalId) :
    (m.sync id f).pendingBut i = m.pendingBut i := by
  simp only [pendingBut, sync, List.filterMap_filter, List.filterMap_map]
  refine List.filterMap_congr fun l _ => ?_
  have hid : (if l.loaded.id == id then ⟨f l.loaded, f l.now⟩ else l : Loaded).loaded.id =
      l.loaded.id := by
    split_ifs <;> simp [hf]
  rw [Function.comp_apply, hid, Loaded.pending_sync id hf]

@[simp] theorem pending_flushed : m.flushed.pending = [] := by
  rw [pending_eq_nil]
  intro l hl
  obtain ⟨l, -, rfl⟩ := List.mem_map.mp hl
  rfl

end Memory

/-- A row of the account for a product of an integration. -/
def Holding (userId integrationId productId : ℕ) (r : Subscription) : Prop :=
  r.integrationId = some integrationId ∧ r.userId = userId ∧ r.externalProductId = some productId

theorem product_mem_keys {r : Subscription} {userId integrationId productId : ℕ} :
    .product userId integrationId productId ∈ r.keys ↔
      Holding userId integrationId productId r := by
  cases hi : r.integrationId <;> cases hp : r.externalProductId <;>
    simp [Subscription.keys, Holding, hi, hp, and_left_comm, eq_comm]

theorem external_mem_keys {r : Subscription} {integrationId transaction : ℕ} :
    .external integrationId transaction ∈ r.keys ↔
      r.integrationId = some integrationId ∧ r.externalId = some transaction := by
  cases hi : r.integrationId <;> cases hp : r.externalId <;>
    simp [Subscription.keys, hi, hp, eq_comm]

/-- A row by what names it in the index of its transactions. -/
structure RowName where
  id : ℕ
  integrationId : Option ℕ
  externalId : Option ℕ

def rowNames (t : Table Subscription) : List RowName :=
  t.rows.map fun r => ⟨r.id, r.integrationId, r.externalId⟩

/-- No other row has the transaction a row is to be given. -/
def Unclaimed (id : ℕ) (externalId : Option ℕ) (ns : List RowName) : Prop :=
  ∀ n ∈ ns, n.id = id → ∀ a ∈ ns, a.id ≠ id → ∀ integrationId transaction,
    n.integrationId = some integrationId → externalId = some transaction →
    ¬(a.integrationId = some integrationId ∧ a.externalId = some transaction)

def renamed (id : ℕ) (externalId : Option ℕ) (ns : List RowName) : List RowName :=
  ns.map fun n => if n.id = id then { n with externalId := externalId } else n

/-- Rows may be given their transactions one after the other. -/
def Renamable : List (ℕ × Option ℕ) → List RowName → Prop
  | [], _ => True
  | (id, externalId) :: rest, ns =>
    Unclaimed id externalId ns ∧ Renamable rest (renamed id externalId ns)

theorem Loaded.write_keys {l : Loaded} (h : l.now.externalId = l.loaded.externalId)
    (row : Subscription) : Keyed.keys (l.write row) = Keyed.keys row := by
  simp [Keyed.keys, Loaded.write, Subscription.keys, changed, h]

variable {l : Loaded} {t w : Table Subscription}

theorem alter_unclaimed (h : l.now.externalId ≠ l.loaded.externalId) :
    (t.alter (·.id == l.loaded.id) l.write).isSome = true ↔
      Unclaimed l.loaded.id l.now.externalId (rowNames t) := by
  have hname : ∀ r, (l.write r).externalId = l.now.externalId := fun r => if_neg h
  have hone := @Table.alter_id_isSome _ _ _ t l.write l.loaded.id _ fun _ => rfl
  refine hone.trans ?_
  simp only [Unclaimed, rowNames, List.forall_mem_map]
  refine forall₂_congr fun r hr => forall_congr' fun hri => ?_
  refine forall₂_congr fun a ha => forall_congr' fun hai => ?_
  constructor
  · rintro hfree i name hi hnow ⟨hai, haname⟩
    exact hfree _ (external_mem_keys.mpr ⟨hai, haname⟩)
      (external_mem_keys.mpr ⟨hi, (hname r).trans hnow⟩)
  · intro hfree k hk hkr
    cases k with
    | external i name =>
      obtain ⟨hi, hnow⟩ := external_mem_keys.mp hkr
      exact hfree i name hi ((hname r).symm.trans hnow) (external_mem_keys.mp hk)
    | product userId integrationId productId =>
      have hheld : Holding userId integrationId productId r :=
        (product_mem_keys (r := l.write r)).mp hkr
      obtain rfl := Table.eq_of_key ha hr hk (product_mem_keys.mpr hheld)
      exact hai hri

theorem rowNames_alter (hw : t.alter (·.id == l.loaded.id) l.write = some w) :
    rowNames w = if l.now.externalId = l.loaded.externalId then rowNames t
      else renamed l.loaded.id l.now.externalId (rowNames t) := by
  unfold rowNames renamed
  rw [(Table.alter_eq_some hw).1]
  split_ifs with h
  · rw [List.map_map]
    refine List.map_congr_left fun r _ => ?_
    simp only [Function.comp_apply]
    split_ifs <;> simp [Loaded.write, changed, h]
  · rw [List.map_map, List.map_map]
    refine List.map_congr_left fun r _ => ?_
    by_cases hr : r.id = l.loaded.id <;> simp [hr, Loaded.write, changed, h]

/-- A write of rows that keeps what names them. -/
theorem rowNames_kept {p : Subscription → Bool} {f : Subscription → Subscription}
    (hf : ∀ r, (f r).id = r.id ∧ (f r).integrationId = r.integrationId ∧
      (f r).externalId = r.externalId)
    (hw : t.alter p f = some w) : rowNames w = rowNames t := by
  unfold rowNames
  rw [(Table.alter_eq_some hw).1, List.map_map]
  refine List.map_congr_left fun r _ => ?_
  simp only [Function.comp_apply]
  split_ifs <;> simp [hf]

/-- Copies are written where the transactions they rename may be given. -/
theorem writeLoaded_isSome (held : List Loaded) (t : Table Subscription) :
    (writeLoaded held t).isSome = true ↔ Renamable (held.filterMap Loaded.pending) (rowNames t) := by
  induction held generalizing t with
  | nil => simp [writeLoaded, Renamable]
  | cons l rest ih =>
    rw [writeLoaded]
    by_cases h : l.now.externalId = l.loaded.externalId
    · rw [List.filterMap_cons_none (Loaded.pending_none.mpr h)]
      split_ifs
      · exact ih t
      · have hwrite : (t.alter (·.id == l.loaded.id) l.write).isSome = true :=
          Table.alter_isSome (fun _ => rfl) fun r _ hk => Loaded.write_keys h r ▸ hk
        obtain ⟨w, hw⟩ := Option.isSome_iff_exists.mp hwrite
        rw [hw, Option.bind_some, ih w, rowNames_alter hw, if_pos h]
    · have hpending : l.pending = some (l.loaded.id, l.now.externalId) := if_neg h
      rw [List.filterMap_cons_some hpending, if_neg fun hnow => h (congrArg (·.externalId) hnow),
        Renamable, ← alter_unclaimed h]
      cases hw : t.alter (·.id == l.loaded.id) l.write with
      | none => simp
      | some w => rw [Option.bind_some, ih w, rowNames_alter hw, if_neg h]; simp

/-- The rows once what a session has written in memory is flushed. -/
def flushedInto (m : Memory) (t : Table Subscription) : Option (Table Subscription) :=
  writeLoaded (m.subscriptions.insertionSort (·.loaded.id ≤ ·.loaded.id)) t

variable {m m' : Memory} {b v : Store}

theorem Loaded.id_of_pending {p : ℕ × Option ℕ} (h : l.pending = some p) : p.1 = l.loaded.id := by
  unfold Loaded.pending at h
  split_ifs at h
  cases h
  rfl

theorem flushedInto_isSome : (flushedInto m t).isSome = true ↔
    Renamable (m.pending.insertionSort (·.1 ≤ ·.1)) (rowNames t) := by
  have hsorted : (m.subscriptions.insertionSort (·.loaded.id ≤ ·.loaded.id)).filterMap Loaded.pending =
      m.pending.insertionSort (·.1 ≤ ·.1) :=
    filterMap_insertionSort (fun _ _ => Loaded.id_of_pending) m.subscriptions
  rw [flushedInto, writeLoaded_isSome, hsorted]

theorem flush_done {u : Table Subscription} (h : flushedInto m v.subscriptions = some u) :
    flush m b v = .done { v with subscriptions := u } (.ok ((), m.flushed)) := by
  unfold flush
  rw [remembered_bind, query_bind]
  rw [flushedInto] at h
  simp only [h]
  rfl

theorem flush_refused (h : flushedInto m v.subscriptions = none) :
    flush m b v = .done v (.error .integrity) := by
  unfold flush
  rw [remembered_bind, query_bind]
  rw [flushedInto] at h
  simp only [h]
  rfl

end FastKit
