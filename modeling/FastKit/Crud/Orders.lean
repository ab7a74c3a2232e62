import FastKit.Services.Crud
import Mathlib.Data.List.NodupEquivFin
import Mathlib.Data.List.Perm.Subperm

/-! # The order an operator drags into place

An order names every row once, and rows the operator may write: then they are answered in it, each in
its place, and nothing else moves.
-/

namespace FastKit.Crud
open Relational Transaction Transaction.Program

variable {π δ : Type} {V : Services π δ} {operator : Operator} {m : Model} {s : Store δ} {a b r : Row δ}
  {ids : List ℕ} {rows : List (Row δ)}

def ordered (operator : Operator) (m : Model) (ids : List ℕ) (s : Store δ) : List (Row δ) :=
  (s m).select (fun r => confinement operator m true s r && ids.contains r.id)

theorem nodup_ids (t : Table (Row δ)) (p : Row δ → Bool) : ((t.select p).map Record.id).Nodup := by
  have hids : (t.rows.map Record.id).Nodup := by
    rw [List.nodup_iff_pairwise_ne, List.pairwise_map]
    exact t.apart.imp fun h => h.1
  exact hids.sublist (List.filter_sublist.map _)

theorem ordered_subset : (ordered operator m ids s).map Record.id ⊆ ids := by
  intro id hid
  obtain ⟨r, hr, rfl⟩ := List.mem_map.mp hid
  have hwanted := (Table.mem_select.mp hr).2
  rw [Bool.and_eq_true, List.contains_iff_mem] at hwanted
  exact hwanted.2

/-- As many rows as the order names are the rows it names. -/
theorem ordered_length : (ordered operator m ids s).length = ids.length ↔
    ids.Nodup ∧ ∀ id ∈ ids, ∃ r ∈ s m, r.id = id ∧ confinement operator m true s r = true := by
  have hnodup : ((ordered operator m ids s).map Record.id).Nodup := nodup_ids _ _
  have hmem : ∀ id, id ∈ (ordered operator m ids s).map Record.id ↔
      id ∈ ids ∧ ∃ r ∈ s m, r.id = id ∧ confinement operator m true s r = true := by
    intro id
    simp only [ordered, List.mem_map, Table.mem_select, Bool.and_eq_true, List.contains_iff_mem]
    constructor
    · rintro ⟨r, ⟨hr, hconfined, hin⟩, rfl⟩
      exact ⟨hin, r, hr, rfl, hconfined⟩
    · rintro ⟨hin, r, hr, rfl, hconfined⟩
      exact ⟨r, ⟨hr, hconfined, hin⟩, rfl⟩
  constructor
  · intro h
    have hperm : ((ordered operator m ids s).map Record.id).Perm ids :=
      (hnodup.subperm ordered_subset).perm_of_length_le (by simp [h])
    exact ⟨hperm.nodup_iff.mp hnodup, fun id hid => ((hmem id).mp (hperm.mem_iff.mpr hid)).2⟩
  · rintro ⟨hids, hall⟩
    have hperm : ((ordered operator m ids s).map Record.id).Perm ids :=
      (List.perm_ext_iff_of_nodup hnodup hids).mpr fun id => by
        rw [hmem]
        exact and_iff_left_of_imp (hall id)
    simpa using hperm.length_eq

instance ahead_total : Std.Total (ahead V) where
  total a b := by
    unfold ahead
    omega

instance ahead_trans : IsTrans (Row δ) (ahead V) where
  trans a b c h h' := by
    unfold ahead at *
    omega

/-- The table after an order of rows that were read. -/
def placing (V : Services π δ) (m : Model) (ids : List ℕ) (rows : List (Row δ)) (s : Store δ) :
    Table (Row δ) :=
  (s m).modify (fun r => moves V ids rows r.id) (placed V ids) (still_placed V ids)

/-- A row is put where the order has it, or was there. -/
theorem mem_placing (h : r ∈ placing V m ids (ordered operator m ids s) s) : ∃ a ∈ s m, a.id = r.id ∧
    (r = a ∧ (moves V ids (ordered operator m ids s) a.id = false) ∨
      r = placed V ids a ∧ moves V ids (ordered operator m ids s) a.id = true) := by
  obtain ⟨a, ha, rfl⟩ := (Table.mem_modify _).mp h
  split_ifs with hmoves
  · exact ⟨a, ha, rfl, .inr ⟨rfl, hmoves⟩⟩
  · exact ⟨a, ha, rfl, .inl ⟨rfl, Bool.eq_false_iff.mpr hmoves⟩⟩

theorem moves_iff (ha : a ∈ s m) : moves V ids (ordered operator m ids s) a.id = true ↔
    a ∈ ordered operator m ids s ∧ V.position a.rest ≠ ids.idxOf a.id := by
  simp only [moves, List.any_eq_true, Bool.and_eq_true, decide_eq_true_eq]
  constructor
  · rintro ⟨b, hb, hid, hmoved⟩
    obtain rfl : b = a := Table.eq_of_id (Table.mem_select.mp hb).1 ha hid
    exact ⟨hb, hmoved⟩
  · rintro ⟨hmem, hmoved⟩
    exact ⟨a, hmem, rfl, hmoved⟩

/-- What an order is answered. -/
def answered (V : Services π δ) (operator : Operator) (m : Model) (ids : List ℕ) (s : Store δ) :
    List (Row δ) :=
  ((placing V m ids (ordered operator m ids s) s).select (fun r => ids.contains r.id)).insertionSort (ahead V)

theorem mem_answered : r ∈ answered V operator m ids s ↔
    r ∈ placing V m ids (ordered operator m ids s) s ∧ r.id ∈ ids := by
  rw [answered, List.mem_insertionSort, Table.mem_select, List.contains_iff_mem]

/-- A row the order does not name is not moved. -/
theorem mem_placing_of_not (hid : r.id ∉ ids) :
    r ∈ placing V m ids (ordered operator m ids s) s ↔ r ∈ s m := by
  have hstays : ∀ a ∈ s m, a.id ∉ ids → moves V ids (ordered operator m ids s) a.id = false := by
    intro a ha haid
    refine Bool.eq_false_iff.mpr fun hmoves => haid ?_
    have hmem := (Table.mem_select.mp ((moves_iff ha).mp hmoves).1).2
    rw [Bool.and_eq_true, List.contains_iff_mem] at hmem
    exact hmem.2
  constructor
  · intro h
    obtain ⟨a, ha, hsame, ⟨rfl, -⟩ | ⟨-, hmoves⟩⟩ := mem_placing h
    · exact ha
    · rw [hstays a ha (hsame ▸ hid)] at hmoves
      cases hmoves
  · intro h
    have hkept := Table.mem_modify_of_mem (p := fun r => moves V ids (ordered operator m ids s) r.id)
      (still_placed V ids) h
    rwa [if_neg (by simp [hstays r h hid])] at hkept

section Placed
variable (hplace : ∀ n d, V.position (V.place n d) = n) (hids : ids.Nodup)
  (hall : ∀ id ∈ ids, ∃ r ∈ s m, r.id = id ∧ confinement operator m true s r = true)

include hplace in
theorem rest_placing (h : r ∈ placing V m ids (ordered operator m ids s) s) :
    ∃ a ∈ s m, r = a ∨ r = { a with rest := V.place (V.position r.rest) a.rest } := by
  obtain ⟨a, ha, -, ⟨rfl, -⟩ | ⟨rfl, -⟩⟩ := mem_placing h
  · exact ⟨r, ha, .inl rfl⟩
  · refine ⟨a, ha, .inr ?_⟩
    simp only [placed, hplace]

include hplace hall in
theorem position_answered (h : r ∈ answered V operator m ids s) : V.position r.rest = ids.idxOf r.id := by
  obtain ⟨hrow, hid⟩ := mem_answered.mp h
  obtain ⟨a, ha, hsame, ⟨rfl, hstays⟩ | ⟨rfl, -⟩⟩ := mem_placing hrow
  · obtain ⟨b, hb, hbid, hconfined⟩ := hall r.id hid
    obtain rfl : b = r := Table.eq_of_id hb ha hbid
    have hmem : b ∈ ordered operator m ids s := Table.mem_select.mpr ⟨hb, by simp [hconfined, hid]⟩
    by_contra hmoved
    rw [(moves_iff hb).mpr ⟨hmem, hmoved⟩] at hstays
    cases hstays
  · exact hplace _ _

include hplace hids hall in
/-- The rows in their places are answered in the order that was asked for. -/
theorem answered_ids : (answered V operator m ids s).map Record.id = ids := by
  have hnodup : ((answered V operator m ids s).map Record.id).Nodup :=
    (nodup_ids _ _).perm ((List.perm_insertionSort (ahead V) _).map Record.id).symm
  have hperm : ((answered V operator m ids s).map Record.id).Perm ids := by
    refine (List.perm_ext_iff_of_nodup hnodup hids).mpr fun id => ?_
    simp only [List.mem_map, mem_answered]
    constructor
    · rintro ⟨r, ⟨-, hin⟩, rfl⟩
      exact hin
    · intro hin
      obtain ⟨b, hb, rfl, -⟩ := hall id hin
      have hkept := Table.mem_modify_of_mem (p := fun r => moves V ids (ordered operator m ids s) r.id)
        (still_placed V ids) hb
      refine ⟨_, ⟨hkept, ?_⟩, ?_⟩ <;> split_ifs <;> simp [placed, hin]
  have hsorted : ((answered V operator m ids s).map Record.id).Pairwise
      (fun x y => ids.idxOf x ≤ ids.idxOf y) := by
    rw [List.pairwise_map]
    refine (List.pairwise_insertionSort (ahead V) _).imp_of_mem fun ha hb hab => ?_
    rw [← position_answered hplace hall ha, ← position_answered hplace hall hb]
    unfold ahead at hab
    omega
  have horder : ids.Pairwise (fun x y => ids.idxOf x ≤ ids.idxOf y) := by
    refine List.pairwise_iff_getElem.mpr fun i j hi hj hij => ?_
    rw [hids.idxOf_getElem i hi, hids.idxOf_getElem j hj]
    exact Nat.le_of_lt hij
  refine List.Perm.eq_of_pairwise (fun x y hx hy hxy hyx => ?_) hsorted horder hperm
  exact (List.idxOf_inj (hperm.mem_iff.mp hx)).mp (Nat.le_antisymm hxy hyx)

include hplace hids hall in
theorem answered_positions :
    (answered V operator m ids s).map (fun r => V.position r.rest) = List.range ids.length := by
  have hidx : (answered V operator m ids s).map (fun r => V.position r.rest) =
      ((answered V operator m ids s).map Record.id).map ids.idxOf := by
    rw [List.map_map]
    exact List.map_congr_left fun r hr => position_answered hplace hall hr
  rw [hidx, answered_ids hplace hids hall]
  refine List.ext_getElem (by simp) fun i hi _ => ?_
  rw [List.length_map] at hi
  rw [List.getElem_map, hids.idxOf_getElem i hi, List.getElem_range]

end Placed

/-- An order is taken just where it names every row once and rows the operator may write. Then they are
answered in it, each in its place and otherwise as it was, no other row moves, and no other table is
written; an order that is not taken writes nothing. -/
theorem reorder_alone (operator : Operator) (ids : List ℕ) (hplace : ∀ n d, V.position (V.place n d) = n) :
    ((ids.Nodup ∧ ∀ id ∈ ids, ∃ r ∈ s m, r.id = id ∧ confinement operator m true s r = true) →
      ∃ t rows, (reorder V operator m ids).run () s s = (.ok (rows, ()), t, t) ∧
        rows.map Record.id = ids ∧ rows.map (fun r => V.position r.rest) = List.range ids.length ∧
        (∀ r ∈ rows, r ∈ t m ∧ ∃ a ∈ s m, r = a ∨ r = { a with rest := V.place (V.position r.rest) a.rest }) ∧
        (∀ r, r.id ∉ ids → (r ∈ t m ↔ r ∈ s m)) ∧ ∀ n, n ≠ m → t n = s n) ∧
    (¬(ids.Nodup ∧ ∀ id ∈ ids, ∃ r ∈ s m, r.id = id ∧ confinement operator m true s r = true) →
      (reorder V operator m ids).run () s s = (.error .notFound, s, s)) := by
  constructor
  · rintro ⟨hids, hall⟩
    have hlength : (ordered operator m ids s).length = ids.length := ordered_length.mpr ⟨hids, hall⟩
    have hthere : (ordered operator m ids s).all (fun r =>
        !moves V ids (ordered operator m ids s) r.id || ((s m).get r.id).isSome) = true := by
      refine List.all_eq_true.mpr fun r hr => ?_
      have hget : (s m).get r.id = some r := Table.get_of_mem (Table.mem_select.mp hr).1
      simp [hget]
    refine ⟨Function.update s m (placing V m ids (ordered operator m ids s) s),
      answered V operator m ids s, ?_, answered_ids hplace hids hall, answered_positions hplace hids hall,
      fun r hr => ?_, fun r hr => ?_, fun n hn => Function.update_of_ne hn _ _⟩
    · unfold ordered at hlength hthere
      simp only [reorder, pass, run_bind, run_query, onward_ok, hlength, ne_eq, not_true_eq_false, if_false,
        run_yield, id_eq, hthere, if_true, run_execute, run_publish]
      rw [Function.update_self]
      rfl
    · have hrow := (mem_answered.mp hr).1
      rw [Function.update_self]
      exact ⟨hrow, rest_placing hplace hrow⟩
    · rw [Function.update_self]
      exact mem_placing_of_not hr
  · intro hrefused
    have hlength : (ordered operator m ids s).length ≠ ids.length := fun h =>
      hrefused (ordered_length.mp h)
    unfold ordered at hlength
    simp only [reorder, run_bind, run_query, onward_ok, ne_eq, hlength, not_false_eq_true, if_true, run_raise]

namespace Mall

/-- Services whose rows hold nothing but their place. -/
def shelves : Services Unit ℕ :=
  ⟨fun _ _ => (), fun _ _ _ _ => none, fun _ _ _ d => d, 0, fun _ _ _ => false, id, fun n _ => n, 0, true⟩

/-- Three currencies, in the places of their ids. -/
def stock : Store ℕ
  | .currency => [0, 1, 2].foldl (fun t place =>
      ((t.insert (fun id => ⟨id, fun _ => none, place⟩)).map Prod.snd).getD t) .empty
  | _ => .empty

end Mall

/-- The last currency is dragged first. -/
theorem reorder_alone_stock : ∃ t rows, (reorder Mall.shelves ⟨0, none, false⟩ .currency [2, 0, 1]).run ()
    Mall.stock Mall.stock = (.ok (rows, ()), t, t) ∧ rows.map Record.id = [2, 0, 1] := by
  obtain ⟨t, rows, hrun, hids, -⟩ := (reorder_alone (V := Mall.shelves) (m := .currency) (s := Mall.stock)
    ⟨0, none, false⟩ [2, 0, 1] fun _ _ => rfl).1 (by decide +kernel)
  exact ⟨t, rows, hrun, hids⟩

end FastKit.Crud
