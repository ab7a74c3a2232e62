import Mathlib.Data.List.Sort
import Mathlib.Data.List.Induction
import Mathlib.Data.Prod.Lex

/-! # One row for each name

Rows ordered by a key, and the first of them for each name. Where no two rows have one key, the
first row of a name among all of them is the first of the rows of that name.
-/

namespace FastKit.Picks

variable {α κ ν : Type} [LinearOrder κ] [DecidableEq ν]

/-- Rows in the order of a key, as they were where two have the same. -/
def sortedBy (key : α → κ) (rows : List α) : List α :=
  rows.insertionSort fun a b => key a ≤ key b

def firsts (name : α → ν) (rows : List α) : List α :=
  rows.foldl (fun picked row =>
    if picked.any fun p => name p = name row then picked else picked ++ [row]) []

variable {key : α → κ} {name : α → ν} {rows : List α} {row : α}

instance totalKey (key : α → κ) : Std.Total fun a b => key a ≤ key b :=
  ⟨fun a b => le_total (key a) (key b)⟩

instance transKey (key : α → κ) : IsTrans α fun a b => key a ≤ key b :=
  ⟨fun _ _ _ => le_trans⟩

@[simp] theorem mem_sortedBy : row ∈ sortedBy key rows ↔ row ∈ rows := List.mem_insertionSort _

theorem sortedBy_perm (key : α → κ) (rows : List α) : (sortedBy key rows).Perm rows :=
  List.perm_insertionSort _ rows

/-- Some of the rows keep their order. -/
theorem filter_sortedBy (hkey : ∀ a ∈ rows, ∀ b ∈ rows, key a = key b → a = b) (p : α → Bool) :
    (sortedBy key rows).filter p = sortedBy key (rows.filter p) := by
  have hperm : ((sortedBy key rows).filter p).Perm (sortedBy key (rows.filter p)) :=
    ((sortedBy_perm key rows).filter p).trans (sortedBy_perm key _).symm
  have hle : ∀ a b, a ∈ (sortedBy key rows).filter p → b ∈ sortedBy key (rows.filter p) →
      key a ≤ key b → key b ≤ key a → a = b := by
    intro a b ha hb hab hba
    exact hkey a (mem_sortedBy.mp (List.mem_of_mem_filter ha)) b
      (List.mem_of_mem_filter (mem_sortedBy.mp hb)) (le_antisymm hab hba)
  have hl := (List.pairwise_insertionSort (fun a b => key a ≤ key b) rows).filter p
  have hr := List.pairwise_insertionSort (fun a b => key a ≤ key b) (rows.filter p)
  exact hperm.eq_of_pairwise hle hl hr

/-- The first of the rows in order that is as asked is the first of those that are. -/
theorem find?_sortedBy (hkey : ∀ a ∈ rows, ∀ b ∈ rows, key a = key b → a = b) (p : α → Bool) :
    (sortedBy key rows).find? p = (sortedBy key (rows.filter p)).head? := by
  rw [← filter_sortedBy hkey, List.head?_filter]

/-- A row that no other one comes before is the first. -/
theorem head?_sortedBy (hrow : row ∈ rows) (hmin : ∀ other ∈ rows, key other ≤ key row → other = row) :
    (sortedBy key rows).head? = some row := by
  have hmem : row ∈ sortedBy key rows := mem_sortedBy.mpr hrow
  have hle := List.pairwise_insertionSort (fun a b => key a ≤ key b) rows
  rw [← sortedBy] at hle
  cases hs : sortedBy key rows with
  | nil => simp [hs] at hmem
  | cons a l =>
    rw [hs] at hmem hle
    have ha : a ∈ rows := mem_sortedBy.mp (hs ▸ List.mem_cons_self)
    obtain rfl | hl := List.mem_cons.mp hmem
    · rfl
    · rw [List.head?_cons, hmin a ha (List.rel_of_pairwise_cons hle hl)]

theorem firsts_append (name : α → ν) (rows : List α) (row : α) : firsts name (rows ++ [row]) =
    if (firsts name rows).any fun p => name p = name row then firsts name rows
    else firsts name rows ++ [row] := by
  simp [firsts]

/-- A row is picked where it is the first of its name. -/
theorem mem_firsts :
    row ∈ firsts name rows ↔ rows.find? (fun p => name p = name row) = some row := by
  induction rows using List.reverseRecOn generalizing row with
  | nil => simp [firsts]
  | append_singleton rows last ih =>
    have hany : ((firsts name rows).any fun p => name p = name last) = true ↔
        ∃ p ∈ rows, name p = name last := by
      rw [List.any_eq_true]
      constructor
      · rintro ⟨p, hp, hn⟩
        exact ⟨p, List.mem_of_find?_eq_some (ih.mp hp), by simpa using hn⟩
      · rintro ⟨p, hp, hn⟩
        obtain ⟨q, hq⟩ : ∃ q, rows.find? (fun r => name r = name last) = some q :=
          Option.isSome_iff_exists.mp (by simpa using ⟨p, hp, hn⟩)
        have hqn : name q = name last := by simpa using List.find?_some hq
        exact ⟨q, ih.mpr (by rw [hqn]; exact hq), by simpa using hqn⟩
    rw [firsts_append, List.find?_append]
    cases hf : rows.find? (fun p => name p = name row) with
    | some q =>
      have hq : name q = name row := by simpa using List.find?_some hf
      have hrow : row ∈ firsts name rows ↔ q = row := by rw [ih, hf, Option.some.injEq]
      split_ifs with h
      · simpa using hrow
      · rw [List.mem_append, List.mem_singleton, hrow, Option.some_or, Option.some.injEq]
        refine or_iff_left_of_imp ?_
        rintro rfl
        exact absurd (hany.mpr ⟨q, List.mem_of_find?_eq_some hf, hq⟩) h
    | none =>
      have hrow : row ∉ firsts name rows := by rw [ih, hf]; simp
      have hfree : ∀ p ∈ rows, name p ≠ name row := by simpa using hf
      split_ifs with h
      · obtain ⟨p, hp, hn⟩ := hany.mp h
        have hne : name last ≠ name row := fun he => hfree p hp (hn.trans he)
        simp [hrow, hne]
      · simp only [List.mem_append, hrow, List.mem_singleton, false_or, Option.none_or,
          List.find?_singleton]
        constructor
        · rintro rfl
          simp
        · intro h
          split_ifs at h
          exact (Option.some.inj h).symm

/-- No name is picked twice. -/
theorem nodup_firsts (name : α → ν) (rows : List α) : ((firsts name rows).map name).Nodup := by
  induction rows using List.reverseRecOn with
  | nil => simp [firsts]
  | append_singleton rows last ih =>
    rw [firsts_append]
    split_ifs with h
    · exact ih
    · rw [List.map_append, List.nodup_append']
      refine ⟨ih, by simp, ?_⟩
      simpa [List.Disjoint] using h

/-! ## The first rows of an order -/

variable {n : ℕ} {last : α}

/-- No row among the first ones is behind the last of them. -/
theorem le_last (h : ((sortedBy key rows).take n).getLast? = some last)
    (hrow : row ∈ (sortedBy key rows).take n) : key row ≤ key last := by
  have hle := (List.pairwise_insertionSort (fun a b => key a ≤ key b) rows).sublist
    (List.take_sublist n _)
  obtain ⟨front, hfront⟩ := List.getLast?_eq_some_iff.mp h
  rw [← sortedBy, hfront] at hle
  rw [hfront] at hrow
  obtain hrow | hrow := List.mem_append.mp hrow
  · exact (List.pairwise_append.mp hle).2.2 row hrow last (List.mem_singleton_self _)
  · exact (List.mem_singleton.mp hrow) ▸ le_rfl

/-- A row that is not behind the last of the first ones is one of them. -/
theorem mem_take_of_le (hkey : ∀ a ∈ rows, ∀ b ∈ rows, key a = key b → a = b)
    (h : ((sortedBy key rows).take n).getLast? = some last) (hrow : row ∈ rows)
    (hle : key row ≤ key last) : row ∈ (sortedBy key rows).take n := by
  have hlast : last ∈ (sortedBy key rows).take n := List.mem_of_getLast? h
  have hmem : row ∈ sortedBy key rows := mem_sortedBy.mpr hrow
  have hsort := List.pairwise_insertionSort (fun a b => key a ≤ key b) rows
  rw [← sortedBy, ← List.take_append_drop n (sortedBy key rows)] at hsort
  rw [← List.take_append_drop n (sortedBy key rows)] at hmem
  obtain hmem | hmem := List.mem_append.mp hmem
  · exact hmem
  · have hge := (List.pairwise_append.mp hsort).2.2 last hlast row hmem
    have hrows := mem_sortedBy.mp (List.mem_of_mem_take hlast)
    exact hkey row hrow last hrows (le_antisymm hle hge) ▸ hlast

end FastKit.Picks
