import Mathlib.Data.List.DropRight
import Mathlib.Tactic.Common

/-! # Runs collapsed to a separator

What a text keeps stays as it is, and each run of anything else becomes one separator. What a
part of the result came from is a part of the text.
-/

namespace FastKit.Text
variable {α : Type}

/-- A text with one `sep` for each run of what is not kept, `inside` such a run or not. -/
def collapsed (keep : α → Bool) (sep : α) : Bool → List α → List α
  | _, [] => []
  | inside, x :: t =>
    if keep x then x :: collapsed keep sep false t
    else if inside then collapsed keep sep true t
    else sep :: collapsed keep sep true t

/-- Whether a text ends inside a run. -/
def afterRun (keep : α → Bool) : Bool → List α → Bool
  | inside, [] => inside
  | _, x :: t => afterRun keep (!keep x) t

/-- A run of what is not kept. -/
def Gap (keep : α → Bool) (g : List α) : Prop := ∀ x ∈ g, keep x = false

variable {keep : α → Bool} {sep : α} {inside : Bool} {t u v g : List α} {x : α}

theorem collapsed_kept (h : keep x = true) :
    collapsed keep sep inside (x :: t) = x :: collapsed keep sep false t := if_pos h

theorem collapsed_run (h : keep x = false) :
    collapsed keep sep true (x :: t) = collapsed keep sep true t := by
  rw [collapsed, if_neg (by rw [h]; exact Bool.false_ne_true), if_pos rfl]

theorem collapsed_start (h : keep x = false) :
    collapsed keep sep false (x :: t) = sep :: collapsed keep sep true t := by
  rw [collapsed, if_neg (by rw [h]; exact Bool.false_ne_true), if_neg Bool.false_ne_true]

theorem collapsed_append : collapsed keep sep inside (t ++ u) =
    collapsed keep sep inside t ++ collapsed keep sep (afterRun keep inside t) u := by
  induction t generalizing inside with
  | nil => rfl
  | cons x t ih =>
    cases hx : keep x with
    | true => rw [List.cons_append, collapsed_kept hx, collapsed_kept hx, ih, afterRun, hx]; rfl
    | false =>
      cases inside with
      | true => rw [List.cons_append, collapsed_run hx, collapsed_run hx, ih, afterRun, hx]; rfl
      | false => rw [List.cons_append, collapsed_start hx, collapsed_start hx, ih, afterRun, hx]; rfl

/-- What is kept goes through as it is. -/
theorem collapsed_all (h : ∀ x ∈ t, keep x = true) : collapsed keep sep inside t = t := by
  induction t generalizing inside with
  | nil => rfl
  | cons x t ih =>
    rw [collapsed_kept (h x List.mem_cons_self), ih fun y hy => h y (List.mem_cons_of_mem _ hy)]

theorem afterRun_all (h : ∀ x ∈ t, keep x = true) (hne : t ≠ []) : afterRun keep inside t = false := by
  induction t generalizing inside with
  | nil => exact absurd rfl hne
  | cons x t ih =>
    rw [afterRun, h x List.mem_cons_self]
    by_cases ht : t = []
    · rw [ht]
      rfl
    · exact ih (fun y hy => h y (List.mem_cons_of_mem _ hy)) ht

theorem collapsed_gap (h : Gap keep g) : collapsed keep sep true g = [] := by
  induction g with
  | nil => rfl
  | cons x g ih =>
    rw [collapsed_run (h x List.mem_cons_self), ih fun y hy => h y (List.mem_cons_of_mem _ hy)]

theorem afterRun_gap (h : Gap keep g) : afterRun keep true g = true := by
  induction g with
  | nil => rfl
  | cons x g ih =>
    rw [afterRun, h x List.mem_cons_self]
    exact ih fun y hy => h y (List.mem_cons_of_mem _ hy)

/-- A run is one separator, and the text behind it goes on inside the run. -/
theorem collapsed_gap_append (h : Gap keep g) (hne : g ≠ []) :
    collapsed keep sep false (g ++ t) = sep :: collapsed keep sep true t := by
  cases g with
  | nil => exact absurd rfl hne
  | cons x g =>
    have hrest : Gap keep g := fun y hy => h y (List.mem_cons_of_mem _ hy)
    rw [List.cons_append, collapsed_start (h x List.mem_cons_self), collapsed_append,
      collapsed_gap hrest, afterRun_gap hrest, List.nil_append]

/-- A part of the result comes from a part of the text. -/
theorem collapsed_split (h : collapsed keep sep inside t = u ++ v) :
    ∃ x y, t = x ++ y ∧ collapsed keep sep inside x = u ∧
      collapsed keep sep (afterRun keep inside x) y = v := by
  induction t generalizing inside u with
  | nil =>
    obtain ⟨rfl, rfl⟩ := List.append_eq_nil_iff.mp h.symm
    exact ⟨[], [], rfl, rfl, rfl⟩
  | cons x t ih =>
    have step : ∀ {w : List α}, collapsed keep sep (!keep x) t = w ++ v →
        ∃ p q, x :: t = x :: p ++ q ∧ collapsed keep sep (!keep x) p = w ∧
          collapsed keep sep (afterRun keep inside (x :: p)) q = v := fun hw => by
      obtain ⟨p, q, rfl, hp, hq⟩ := ih hw
      exact ⟨p, q, rfl, hp, hq⟩
    cases u with
    | nil => exact ⟨[], x :: t, rfl, rfl, h⟩
    | cons a u =>
      cases hx : keep x with
      | true =>
        rw [collapsed_kept hx, List.cons_append] at h
        obtain ⟨rfl, hrest⟩ := List.cons.inj h
        obtain ⟨p, q, ht, hp, hq⟩ := step (by rw [hx]; exact hrest)
        exact ⟨x :: p, q, ht, by rw [collapsed_kept hx, ← hp, hx]; rfl, hq⟩
      | false =>
        cases inside with
        | true =>
          rw [collapsed_run hx] at h
          obtain ⟨p, q, ht, hp, hq⟩ := step (by rw [hx]; exact h)
          exact ⟨x :: p, q, ht, by rw [collapsed_run hx, ← hp, hx]; rfl, hq⟩
        | false =>
          rw [collapsed_start hx, List.cons_append] at h
          obtain ⟨rfl, hrest⟩ := List.cons.inj h
          obtain ⟨p, q, ht, hp, hq⟩ := step (by rw [hx]; exact hrest)
          exact ⟨x :: p, q, ht, by rw [collapsed_start hx, ← hp, hx]; rfl, hq⟩

/-- A result without a separator is the text itself. -/
theorem eq_of_collapsed (h : collapsed keep sep false t = u) (hsep : sep ∉ u) : t = u := by
  induction t generalizing u with
  | nil => exact h
  | cons x t ih =>
    cases hx : keep x with
    | true =>
      rw [collapsed_kept hx] at h
      subst h
      rw [← ih rfl fun hmem => hsep (List.mem_cons_of_mem _ hmem)]
    | false =>
      rw [collapsed_start hx] at h
      exact absurd (h ▸ List.mem_cons_self) hsep

/-- Inside a run, what is kept next comes after the rest of the run. -/
theorem collapsed_inside (keep : α → Bool) (sep : α) (t : List α) : ∃ g w, t = g ++ w ∧
    Gap keep g ∧ collapsed keep sep false w = collapsed keep sep true t := by
  induction t with
  | nil => exact ⟨[], [], rfl, fun _ hm => absurd hm List.not_mem_nil, rfl⟩
  | cons y t ih =>
    cases hy : keep y with
    | true =>
      refine ⟨[], y :: t, rfl, fun _ hm => absurd hm List.not_mem_nil, ?_⟩
      rw [collapsed_kept hy, collapsed_kept hy]
    | false =>
      obtain ⟨g, w, rfl, hg, hw⟩ := ih
      refine ⟨y :: g, w, rfl, ?_, by rw [hw, collapsed_run hy]⟩
      intro z hz
      rcases List.mem_cons.mp hz with rfl | hz
      · exact hy
      · exact hg z hz

theorem dropWhile_append_of_not {p : α → Bool} (h : p x = false) :
    (t ++ x :: u).dropWhile p = t.dropWhile p ++ x :: u := by
  induction t with
  | nil => rw [List.nil_append, List.dropWhile_cons, h]; rfl
  | cons y t ih =>
    rw [List.cons_append, List.dropWhile_cons, List.dropWhile_cons]
    split_ifs
    · exact ih
    · rfl

/-- What ends in something else is kept by a strip from the right. -/
theorem exists_rdropWhile_append {p : α → Bool} (h : p x = false) (v : List α) :
    ∃ w, (t ++ [x] ++ v).rdropWhile p = t ++ [x] ++ w := by
  induction v using List.reverseRecOn with
  | nil =>
    refine ⟨[], ?_⟩
    rw [List.append_nil, List.rdropWhile_concat_neg _ _ _ (by rw [h]; exact Bool.false_ne_true)]
  | append_singleton v y ih =>
    by_cases hy : p y = true
    · obtain ⟨w, hw⟩ := ih
      exact ⟨w, by rw [← List.append_assoc, List.rdropWhile_concat_pos _ _ _ hy, hw]⟩
    · exact ⟨v ++ [y], by rw [← List.append_assoc, List.rdropWhile_concat_neg _ _ _ hy]⟩

/-- Every place of a result is a separator or was kept. -/
theorem mem_collapsed (h : x ∈ collapsed keep sep inside t) : x = sep ∨ keep x = true := by
  induction t generalizing inside with
  | nil => cases h
  | cons y t ih =>
    cases hy : keep y with
    | true =>
      rw [collapsed_kept hy] at h
      rcases List.mem_cons.mp h with rfl | h
      · exact .inr hy
      · exact ih h
    | false =>
      cases inside with
      | true =>
        rw [collapsed_run hy] at h
        exact ih h
      | false =>
        rw [collapsed_start hy] at h
        rcases List.mem_cons.mp h with rfl | h
        · exact .inl rfl
        · exact ih h

end FastKit.Text
