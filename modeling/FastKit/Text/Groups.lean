import FastKit.Text.Decimals

/-! # Digits in groups of three

A number written in decimal digits with a mark before every three of them from the right, and read
with the marks left out.
-/

namespace FastKit.Text

variable {sep : Char}

/-- The digits of a number in groups of three from the right. -/
def groups (n : ℕ) : List (List Char) :=
  if n < 1000 then [decimal n] else groups (n / 1000) ++ [padded 3 (n % 1000)]

/-- A number in decimal digits with a mark between its groups. -/
def grouped (sep : Char) (n : ℕ) : List Char := [sep].intercalate (groups n)

theorem numeral_groups (n : ℕ) : numeral (groups n).flatten = n := by
  induction n using groups.induct with
  | case1 n h => simp [groups, h]
  | case2 n h ih =>
    have hlength : (padded 3 (n % 1000)).length = 3 :=
      length_padded (Nat.mod_lt n (by decide)) (by decide)
    rw [groups, if_neg h, List.flatten_append, List.flatten_singleton, numeral_append, ih,
      numeral_padded, hlength]
    exact Nat.div_add_mod n 1000

theorem isDigit_groups (n : ℕ) : ∀ g ∈ groups n, ∀ c ∈ g, c.isDigit := by
  induction n using groups.induct with
  | case1 n h =>
    rw [groups, if_pos h]
    intro g hg
    rw [List.mem_singleton.mp hg]
    exact isDigit_decimal n
  | case2 n h ih =>
    rw [groups, if_neg h]
    intro g hg
    obtain hg | hg := List.mem_append.mp hg
    · exact ih g hg
    · rw [List.mem_singleton.mp hg]
      exact isDigit_padded 3 _

/-- The first group has a digit at least, and every other one three. -/
theorem groups_cons (n : ℕ) : ∃ g gs, groups n = g :: gs ∧ (0 < g.length ∧ g.length ≤ 3) ∧
    ∀ h ∈ gs, h.length = 3 := by
  induction n using groups.induct with
  | case1 n h =>
    refine ⟨decimal n, [], by rw [groups, if_pos h], ⟨?_, ?_⟩, by simp⟩
    · exact Nat.length_toDigits_pos
    · exact length_decimal_le h (by decide)
  | case2 n h ih =>
    obtain ⟨g, gs, hg, hl, hgs⟩ := ih
    refine ⟨g, gs ++ [padded 3 (n % 1000)], by rw [groups, if_neg h, hg]; rfl, hl, ?_⟩
    intro u hu
    obtain hu | hu := List.mem_append.mp hu
    · exact hgs u hu
    · rw [List.mem_singleton.mp hu]
      exact length_padded (Nat.mod_lt _ (by decide)) (by decide)

theorem groups_ne_nil (n : ℕ) : groups n ≠ [] := by
  obtain ⟨g, gs, h, -⟩ := groups_cons n
  simp [h]

/-- What stands between marks, with the marks left out. -/
theorem filter_intercalate {ls : List (List Char)} (h : ∀ l ∈ ls, sep ∉ l) :
    ([sep].intercalate ls).filter (· ≠ sep) = ls.flatten := by
  have hkeep {l : List Char} (hl : sep ∉ l) : l.filter (· ≠ sep) = l :=
    List.filter_eq_self.mpr fun c hc => by
      rw [decide_eq_true_eq]
      rintro rfl
      exact hl hc
  induction ls with
  | nil => rfl
  | cons l ls ih =>
    have ih := ih fun l hl => h l (List.mem_cons_of_mem _ hl)
    have hl := hkeep (h l List.mem_cons_self)
    cases ls with
    | nil => simpa [List.intercalate] using hl
    | cons m ms =>
      simp only [List.intercalate, List.intersperse_cons_cons, List.flatten_cons, List.filter_append,
        hl] at ih ⊢
      rw [ih]
      simp

theorem not_mem_groups (hs : ¬ sep.isDigit) (n : ℕ) : ∀ g ∈ groups n, sep ∉ g := fun g hg hc =>
  hs (isDigit_groups n g hg sep hc)

/-- The groups are what stands between the marks. -/
theorem splitOn_grouped (hs : ¬ sep.isDigit) (n : ℕ) : (grouped sep n).splitOn sep = groups n :=
  List.splitOn_intercalate sep (not_mem_groups hs n) (groups_ne_nil n)

theorem filter_grouped (hs : ¬ sep.isDigit) (n : ℕ) :
    (grouped sep n).filter (· ≠ sep) = (groups n).flatten :=
  filter_intercalate (not_mem_groups hs n)

theorem mem_grouped (hs : ¬ sep.isDigit) {c : Char} {n : ℕ} (hc : c ∈ grouped sep n) :
    c = sep ∨ c.isDigit := by
  by_cases h : c = sep
  · exact .inl h
  · have hf : c ∈ (grouped sep n).filter (· ≠ sep) := List.mem_filter.mpr ⟨hc, by simpa using h⟩
    rw [filter_grouped hs, List.mem_flatten] at hf
    obtain ⟨g, hg, hcg⟩ := hf
    exact .inr (isDigit_groups n g hg c hcg)

theorem map_intercalate (f : Char → Char) (ls : List (List Char)) :
    ([sep].intercalate ls).map f = [f sep].intercalate (ls.map (List.map f)) := by
  induction ls with
  | nil => rfl
  | cons l ls ih =>
    cases ls with
    | nil => simp [List.intercalate]
    | cons m ms =>
      simp only [List.intercalate, List.map_cons, List.intersperse_cons_cons, List.flatten_cons,
        List.map_append] at ih ⊢
      rw [ih]
      rfl

/-- Another mark in the place of one. -/
theorem map_grouped {f : Char → Char} (hd : ∀ c, c.isDigit → f c = c) (n : ℕ) :
    (grouped sep n).map f = grouped (f sep) n := by
  rw [grouped, map_intercalate, grouped]
  congr 1
  refine (List.map_congr_left fun g hg => ?_).trans (List.map_id _)
  exact (List.map_congr_left fun c hc => hd c (isDigit_groups n g hg c hc)).trans (List.map_id g)

end FastKit.Text
