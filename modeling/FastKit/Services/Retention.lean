import FastKit.Transaction.Steps
import FastKit.Transaction.Table
import Mathlib.Data.List.Sort

/-! # Retention

What an operational table stops keeping is deleted a page at a time. Alone, the walk over the
pages ends and is one delete of its condition, whatever the size of a page.
-/

namespace FastKit.Retention
open Transaction Transaction.Program

variable {μ σ ε α κ : Type} [Keyed α κ]

/-- Where a store keeps the rows of a table. -/
structure Shelf (σ α : Type) {κ : Type} [Keyed α κ] where
  rows : σ → Table α
  write : Table α → σ → σ
  rows_write : ∀ t s, rows (write t s) = t
  write_write : ∀ t u s, write t (write u s) = write t s
  write_rows : ∀ s, write (rows s) s = s

/-- The ids of one page of what a condition asks for, the first ones of the table. -/
def page (condition : α → Bool) (size : ℕ) (t : Table α) : List ℕ :=
  (((t.select condition).insertionSort (fun a b => Keyed.id a ≤ Keyed.id b)).take size).map Keyed.id

variable (shelf : Shelf σ α)

/-- The delete walks a page at a time, and the session notes what it read to delete. The walk has
no bound of its own, so each of its runs is one of some `pages`. -/
def trimWhere (note : List ℕ → μ → μ) (spent : ε) (condition : α → Bool) (size : ℕ) :
    ℕ → Program μ σ ε ℕ
  | 0 => raise spent
  | pages + 1 => do
    let ids ← query (fun s => page condition size (shelf.rows s))
    if ids.isEmpty then pure 0
    else
      remember (note ids)
      yield id
      let gone ← query (fun s => ((shelf.rows s).select (fun r => ids.contains (Keyed.id r))).length)
      execute (fun s => shelf.write ((shelf.rows s).erase (fun r => ids.contains (Keyed.id r))) s)
      remember (note [])
      publish
      let removed ← trimWhere note spent condition size pages
      pure (gone + removed)

variable {shelf} {note : List ℕ → μ → μ} {spent : ε} {condition : α → Bool} {size pages : ℕ}
  {t : Table α} {r : α} {m : μ} {s : σ}

/-- What a page names is what its condition asks for. -/
theorem mem_page {i : ℕ} (h : i ∈ page condition size t) :
    ∃ r ∈ t, Keyed.id r = i ∧ condition r = true := by
  obtain ⟨r, hr, hid⟩ := List.mem_map.mp h
  obtain ⟨hmem, hc⟩ := Table.mem_select.mp ((List.mem_insertionSort _).mp (List.mem_of_mem_take hr))
  exact ⟨r, hmem, hid, hc⟩

theorem condition_of_page (hr : r ∈ t) (h : (page condition size t).contains (Keyed.id r) = true) :
    condition r = true := by
  obtain ⟨a, ha, hid, hc⟩ := mem_page (List.contains_iff_mem.mp h)
  rwa [← Table.eq_of_id ha hr hid]

theorem page_eq_nil (hsize : 0 < size) (h : page condition size t = []) : t.select condition = [] := by
  have hlen := congrArg List.length h
  simp only [page, List.length_map, List.length_take, List.length_insertionSort, List.length_nil] at hlen
  exact List.eq_nil_of_length_eq_zero (by omega)

/-- What a page deletes, and what is left for the next ones. -/
theorem length_select (t : Table α) (condition : α → Bool) (size : ℕ) : (t.select condition).length =
    (t.select (fun r => (page condition size t).contains (Keyed.id r))).length +
      ((t.erase (fun r => (page condition size t).contains (Keyed.id r))).select condition).length := by
  simp only [Table.select, Table.erase, List.filter_filter]
  rw [← List.countP_eq_length_filter, ← List.countP_eq_length_filter, ← List.countP_eq_length_filter,
    List.countP_eq_countP_filter_add _ _ (fun r => (page condition size t).contains (Keyed.id r)),
    List.countP_filter, List.countP_filter]
  congr 1
  refine List.countP_congr fun r hr => ?_
  rw [Bool.and_eq_true]
  exact ⟨And.right, fun h => ⟨condition_of_page hr h, h⟩⟩

theorem erase_page : (t.erase (fun r => (page condition size t).contains (Keyed.id r))).erase condition =
    t.erase condition := by
  rw [Table.erase_erase]
  refine Table.erase_congr fun r hr => ?_
  cases hpage : (page condition size t).contains (Keyed.id r) with
  | true => rw [condition_of_page hr hpage, Bool.or_true]
  | false => rw [Bool.false_or]

/-- A walk whose pages outnumber the rows its condition asks for ends where nobody runs beside
it, and deletes all of these rows and no other, whatever the size of a page. -/
theorem trimWhere_alone (hsize : 0 < size) (hpages : ((shelf.rows s).select condition).length < pages) :
    ∃ m', (trimWhere shelf note spent condition size pages).run m s s =
      (.ok (((shelf.rows s).select condition).length, m'),
        shelf.write ((shelf.rows s).erase condition) s, shelf.write ((shelf.rows s).erase condition) s) := by
  induction pages generalizing m s with
  | zero => exact absurd hpages (Nat.not_lt_zero _)
  | succ pages ih =>
    simp only [trimWhere, run_bind, run_query, onward_ok, run_ite]
    by_cases hempty : (page condition size (shelf.rows s)).isEmpty = true
    · have hnone := page_eq_nil hsize (List.isEmpty_iff.mp hempty)
      have hsame : shelf.write ((shelf.rows s).erase condition) s = s := by
        rw [Table.erase_none fun r hr => by simpa [hr] using List.filter_eq_nil_iff.mp hnone r hr,
          shelf.write_rows]
      rw [if_pos hempty, hnone, hsame]
      exact ⟨m, rfl⟩
    · rw [if_neg hempty]
      simp only [run_bind, run_remember, run_yield, run_query, run_execute, run_publish, onward_ok, id_eq]
      obtain ⟨i, hi⟩ := List.exists_mem_of_ne_nil _ (fun h => hempty (List.isEmpty_iff.mpr h))
      obtain ⟨r, hr, rfl, -⟩ := mem_page hi
      have hgone : 0 < ((shelf.rows s).select
          (fun a => (page condition size (shelf.rows s)).contains (Keyed.id a))).length :=
        List.length_pos_of_mem (Table.mem_select.mpr ⟨hr, List.contains_iff_mem.mpr hi⟩)
      have hlen := length_select (shelf.rows s) condition size
      obtain ⟨m', hrun⟩ := ih (m := note [] (note (page condition size (shelf.rows s)) m))
        (s := shelf.write ((shelf.rows s).erase
          (fun a => (page condition size (shelf.rows s)).contains (Keyed.id a))) s) (by
          rw [shelf.rows_write]
          omega)
      rw [shelf.rows_write, erase_page, shelf.write_write] at hrun
      rw [hrun, hlen]
      exact ⟨m', rfl⟩

/-- Every segment of a walk is a step, where reading a page and deleting one are. `Ready` says of a
session that it may read a page. -/
theorem trimWhere_meets {Step : μ → σ → μ → σ → Prop} (Ready : μ → σ → Prop)
    (reads : ∀ m s, Ready m s → Step m s (note (page condition size (shelf.rows s)) m) s)
    (drops : ∀ ids m s, Step (note ids m) s (note [] (note ids m))
      (shelf.write ((shelf.rows s).erase (fun r => ids.contains (Keyed.id r))) s))
    (again : ∀ ids m s, Ready (note [] (note ids m)) s) (pages : ℕ) (h : Ready m s) :
    (trimWhere shelf note spent condition size pages).Meets (stepping Step) anew m m s s := by
  induction pages generalizing m s with
  | zero => trivial
  | succ pages ih =>
    simp only [trimWhere, meets_bind, meets_query, ending_ok]
    refine meets_ite.mpr ⟨fun _ => ⟨rfl, rfl⟩, fun _ => ?_⟩
    simp only [meets_bind, meets_remember, meets_query, meets_execute, ending_ok, steps_yield,
      steps_publish, id_eq]
    refine ⟨reads m s h, fun t => ⟨drops _ m t, fun u => ?_⟩⟩
    refine (ih (again _ m u)).mono ?_
    rintro g (e | p) b v hend
    · trivial
    · exact hend

end FastKit.Retention
