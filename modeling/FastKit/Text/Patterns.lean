import Mathlib.Data.List.Forall2
import Mathlib.Data.List.Infix
import Mathlib.Tactic.Common

/-! # Patterns of a fixed width

A pattern says of each place what may stand there. A text is read from the left, and where a
match was read the reading goes on behind it, so no two matches overlap.
-/

namespace FastKit.Text
variable {α : Type}

abbrev Pattern (α : Type) := List (α → Bool)

/-- Whether a text is one match of the pattern and nothing more. -/
def Fits (P : Pattern α) (t : List α) : Prop := List.Forall₂ (fun p x => p x = true) P t

instance (P : Pattern α) (t : List α) : Decidable (Fits P t) :=
  inferInstanceAs (Decidable (List.Forall₂ _ P t))

def startsWith : Pattern α → List α → Bool
  | [], _ => true
  | _ :: _, [] => false
  | p :: P, x :: t => p x && startsWith P t

/-- The matches of a text from the left, where its first `skip` places are read already. -/
def occurrences (P : Pattern α) : ℕ → List α → List (List α)
  | _, [] => []
  | skip + 1, _ :: t => occurrences P skip t
  | 0, x :: t =>
    if startsWith P (x :: t) then (x :: t).take P.length :: occurrences P (P.length - 1) t
    else occurrences P 0 t

/-- A text with `y` for each of its matches. -/
def replaced (P : Pattern α) (y : α) : ℕ → List α → List α
  | _, [] => []
  | skip + 1, _ :: t => replaced P y skip t
  | 0, x :: t =>
    if startsWith P (x :: t) then y :: replaced P y (P.length - 1) t
    else x :: replaced P y 0 t

variable {P : Pattern α} {t u v : List α} {skip : ℕ}

theorem occurrences_cons {x : α} : occurrences P 0 (x :: t) =
    if startsWith P (x :: t) then (x :: t).take P.length :: occurrences P (P.length - 1) t
    else occurrences P 0 t := rfl

theorem Fits.length (h : Fits P t) : t.length = P.length := (List.Forall₂.length_eq h).symm

theorem fits_append {Q : Pattern α} (hu : Fits P u) (hv : Fits Q v) : Fits (P ++ Q) (u ++ v) :=
  List.rel_append hu hv

/-- A match of two patterns, one after the other, is a match of each. -/
theorem exists_of_fits_append {Q : Pattern α} (h : Fits (P ++ Q) t) :
    ∃ u v, t = u ++ v ∧ Fits P u ∧ Fits Q v := by
  induction P generalizing t with
  | nil => exact ⟨[], t, rfl, .nil, h⟩
  | cons p P ih =>
    cases h with
    | cons hx ht =>
      obtain ⟨u, v, rfl, hu, hv⟩ := ih ht
      exact ⟨_ :: u, v, rfl, .cons hx hu, hv⟩

theorem startsWith_iff : startsWith P t = true ↔ ∃ u v, t = u ++ v ∧ Fits P u := by
  induction P generalizing t with
  | nil => exact ⟨fun _ => ⟨[], t, rfl, .nil⟩, fun _ => rfl⟩
  | cons p P ih =>
    cases t with
    | nil =>
      refine ⟨fun h => absurd h Bool.false_ne_true, ?_⟩
      rintro ⟨u, v, huv, hu⟩
      obtain ⟨rfl, rfl⟩ := List.append_eq_nil_iff.mp huv.symm
      cases hu
    | cons x t =>
      rw [startsWith, Bool.and_eq_true, ih]
      constructor
      · rintro ⟨hx, u, v, rfl, hu⟩
        exact ⟨x :: u, v, rfl, .cons hx hu⟩
      · rintro ⟨u, v, huv, hu⟩
        cases hu with
        | cons hx hu =>
          obtain ⟨rfl, rfl⟩ := List.cons.inj huv
          exact ⟨hx, _, v, rfl, hu⟩

theorem startsWith_length (h : startsWith P t = true) : P.length ≤ t.length := by
  obtain ⟨u, v, rfl, hu⟩ := startsWith_iff.mp h
  rw [List.length_append, hu.length]
  omega

/-- What no place of a pattern may hold keeps the matches before it apart from what follows. -/
theorem startsWith_separator {s : α} (hs : ∀ p ∈ P, p s = false) (hP : P ≠ []) :
    startsWith P (u ++ s :: v) = startsWith P u := by
  induction P generalizing u with
  | nil => exact absurd rfl hP
  | cons p P ih =>
    cases u with
    | nil => rw [List.nil_append, startsWith, startsWith, hs p List.mem_cons_self, Bool.false_and]
    | cons x u =>
      rw [List.cons_append, startsWith, startsWith]
      by_cases hP' : P = []
      · rw [hP', startsWith, startsWith]
      · rw [ih (fun q hq => hs q (List.mem_cons_of_mem _ hq)) hP']

theorem occurrences_separator {s : α} (hs : ∀ p ∈ P, p s = false) (hP : P ≠ [])
    (hskip : skip ≤ u.length) :
    occurrences P skip (u ++ s :: v) = occurrences P skip u ++ occurrences P 0 v := by
  have hlen := List.length_pos_iff.mpr hP
  induction u generalizing skip with
  | nil =>
    obtain rfl : skip = 0 := Nat.le_zero.mp hskip
    have hnone : startsWith P (s :: v) = false := by
      have hsep := startsWith_separator (u := []) (v := v) hs hP
      rw [List.nil_append] at hsep
      rw [hsep]
      cases P with
      | nil => exact absurd rfl hP
      | cons p P => rfl
    rw [List.nil_append, occurrences_cons, hnone]
    rfl
  | cons x u ih =>
    rw [List.length_cons] at hskip
    cases skip with
    | succ skip => exact ih (by omega)
    | zero =>
      rw [List.cons_append, occurrences_cons, occurrences_cons, ← List.cons_append,
        startsWith_separator hs hP]
      split_ifs with hstart
      · have hle := startsWith_length hstart
        rw [List.length_cons] at hle
        rw [List.take_append_of_le_length (by rw [List.length_cons]; exact hle), ih (by omega),
          List.cons_append]
      · exact ih (Nat.zero_le _)

/-- What a text is read to hold are matches. -/
theorem fits_of_mem_occurrences (h : u ∈ occurrences P skip t) : Fits P u := by
  induction t generalizing skip with
  | nil => cases skip <;> exact absurd h List.not_mem_nil
  | cons x t ih =>
    cases skip with
    | succ skip => exact ih h
    | zero =>
      rw [occurrences_cons] at h
      split_ifs at h with hstart
      · rcases List.mem_cons.mp h with rfl | h
        · obtain ⟨u, v, huv, hu⟩ := startsWith_iff.mp hstart
          rw [huv, List.take_left' hu.length]
          exact hu
        · exact ih h
      · exact ih h

/-- A rewrite within the places of a pattern keeps a match one. -/
theorem Fits.map {f : α → α} (h : Fits P t) (hf : ∀ p ∈ P, ∀ x, p x = true → p (f x) = true) :
    Fits P (t.map f) := by
  induction h with
  | nil => exact .nil
  | cons hx _ ih =>
    exact .cons (hf _ List.mem_cons_self _ hx)
      (ih fun p hp => hf p (List.mem_cons_of_mem _ hp))

/-- Every place of a match is one of its pattern. -/
theorem Fits.exists_of_mem {x : α} (h : Fits P t) (hx : x ∈ t) : ∃ p ∈ P, p x = true := by
  induction h with
  | nil => cases hx
  | cons hp _ ih =>
    rcases List.mem_cons.mp hx with rfl | hx
    · exact ⟨_, List.mem_cons_self, hp⟩
    · obtain ⟨p, hmem, hpx⟩ := ih hx
      exact ⟨p, List.mem_cons_of_mem _ hmem, hpx⟩

theorem occurrences_skip (h : t.length ≤ skip) : occurrences P skip t = [] := by
  induction t generalizing skip with
  | nil => rw [occurrences]
  | cons x t ih =>
    obtain ⟨k, rfl⟩ := Nat.exists_eq_succ_of_ne_zero (n := skip) (by
      rw [List.length_cons] at h
      omega)
    exact ih (by
      rw [List.length_cons] at h
      omega)

/-- A match is the one match of itself. -/
theorem occurrences_of_fits (hP : P ≠ []) (h : Fits P t) : occurrences P 0 t = [t] := by
  cases h with
  | nil => exact absurd rfl hP
  | @cons p x P t hx ht =>
    have hstart : startsWith (p :: P) (x :: t) = true :=
      startsWith_iff.mpr ⟨x :: t, [], (List.append_nil _).symm, .cons hx ht⟩
    rw [occurrences, if_pos hstart, List.length_cons, Nat.add_sub_cancel,
      occurrences_skip (Fits.length ht).le, List.take_of_length_le]
    rw [List.length_cons, Fits.length ht]

/-- A text has a match exactly where some stretch of it is one. -/
theorem occurrences_eq_nil (hP : P ≠ []) :
    occurrences P 0 t = [] ↔ ∀ u, u <:+: t → ¬Fits P u := by
  induction t with
  | nil =>
    refine ⟨fun _ u hu hfits => ?_, fun _ => rfl⟩
    obtain rfl := List.infix_nil.mp hu
    cases hfits
    exact hP rfl
  | cons x t ih =>
    rw [occurrences]
    split_ifs with hstart
    · refine ⟨fun h => (by cases h), fun h => ?_⟩
      obtain ⟨u, v, huv, hu⟩ := startsWith_iff.mp hstart
      exact absurd hu (h u ⟨[], v, by rw [List.nil_append, huv]⟩)
    · rw [ih]
      refine ⟨fun h u hu hfits => ?_, fun h u hu => h u (List.infix_cons hu)⟩
      rcases List.infix_cons_iff.mp hu with ⟨v, hv⟩ | hu
      · exact hstart (startsWith_iff.mpr ⟨u, v, hv.symm, hfits⟩)
      · exact h u hu hfits

/-- A text that lacks what a place of the pattern asks for has no match. -/
theorem occurrences_of_lacks {p : α → Bool} (hp : p ∈ P) (h : ∀ x ∈ t, p x = false) :
    occurrences P 0 t = [] := by
  refine (occurrences_eq_nil (List.ne_nil_of_mem hp)).mpr fun u hu hfits => ?_
  obtain ⟨x, hx, hpx⟩ : ∃ x ∈ u, p x = true := by
    clear hu
    induction hfits with
    | nil => exact absurd hp List.not_mem_nil
    | cons hq _ ih =>
      rcases List.mem_cons.mp hp with rfl | hp
      · exact ⟨_, List.mem_cons_self, hq⟩
      · obtain ⟨x, hx, hpx⟩ := ih hp
        exact ⟨x, List.mem_cons_of_mem _ hx, hpx⟩
  rw [h x (hu.subset hx)] at hpx
  cases hpx

end FastKit.Text
