import Mathlib.Data.List.Infix
import Mathlib.Tactic.Common

/-! # Patterns with wildcards

A pattern stands for one text, but for its wildcards: one that stands for any character and one that
stands for any text. Behind the escape of a pattern, each character stands for itself.
-/

namespace FastKit.Text
variable {α : Type} [DecidableEq α]

/-- What a place of a pattern stands for. -/
inductive Wild (α : Type) where
  | char (c : α)
  | one
  | many

def like : List (Wild α) → List α → Bool
  | [], t => t.isEmpty
  | .char c :: ps, t => t.head? = some c && like ps t.tail
  | .one :: ps, t => t.head?.isSome && like ps t.tail
  | .many :: ps, t => t.tails.any (like ps)

variable {ps qs : List (Wild α)} {t u w : List α} {c : α}

@[simp] theorem like_nil : like [] t = true ↔ t = [] := by simp [like]

@[simp] theorem like_char : like (.char c :: ps) t = true ↔ ∃ u, t = c :: u ∧ like ps u = true := by
  cases t <;> simp [like]

@[simp] theorem like_one : like (.one :: ps) t = true ↔ ∃ x u, t = x :: u ∧ like ps u = true := by
  cases t <;> simp [like]

@[simp] theorem like_many : like (.many :: ps) t = true ↔ ∃ u v, t = u ++ v ∧ like ps v = true := by
  simp only [like, List.any_eq_true, List.mem_tails]
  constructor
  · rintro ⟨v, ⟨u, rfl⟩, h⟩
    exact ⟨u, v, rfl, h⟩
  · rintro ⟨u, v, rfl, h⟩
    exact ⟨v, ⟨u, rfl⟩, h⟩

/-- Two patterns in a row stand for two texts in a row. -/
theorem like_append : like (ps ++ qs) t = true ↔
    ∃ u v, t = u ++ v ∧ like ps u = true ∧ like qs v = true := by
  induction ps generalizing t with
  | nil => simp
  | cons p ps ih =>
    cases p with
    | char c =>
      simp only [List.cons_append, like_char, ih]
      constructor
      · rintro ⟨_, rfl, u, v, rfl, hu, hv⟩
        exact ⟨c :: u, v, rfl, ⟨u, rfl, hu⟩, hv⟩
      · rintro ⟨_, v, rfl, ⟨u, rfl, hu⟩, hv⟩
        exact ⟨u ++ v, rfl, u, v, rfl, hu, hv⟩
    | one =>
      simp only [List.cons_append, like_one, ih]
      constructor
      · rintro ⟨x, _, rfl, u, v, rfl, hu, hv⟩
        exact ⟨x :: u, v, rfl, ⟨x, u, rfl, hu⟩, hv⟩
      · rintro ⟨_, v, rfl, ⟨x, u, rfl, hu⟩, hv⟩
        exact ⟨x, u ++ v, rfl, u, v, rfl, hu, hv⟩
    | many =>
      simp only [List.cons_append, like_many, ih]
      constructor
      · rintro ⟨w, _, rfl, u, v, rfl, hu, hv⟩
        exact ⟨w ++ u, v, (List.append_assoc w u v).symm, ⟨w, u, rfl, hu⟩, hv⟩
      · rintro ⟨_, v, rfl, ⟨w, u, rfl, hu⟩, hv⟩
        exact ⟨w, u ++ v, List.append_assoc w u v, u, v, rfl, hu, hv⟩

/-- A pattern without wildcards stands for itself. -/
@[simp] theorem like_map_char : like (w.map .char) t = true ↔ t = w := by
  induction w generalizing t with
  | nil => exact like_nil
  | cons c w ih => simp [ih]

theorem like_prefix : like (w.map .char ++ [.many]) t = true ↔ w <+: t := by
  simp only [like_append, like_map_char, like_many, like_nil]
  constructor
  · rintro ⟨_, v, rfl, rfl, -⟩
    exact ⟨v, rfl⟩
  · rintro ⟨v, rfl⟩
    exact ⟨w, v, rfl, rfl, v, [], (List.append_nil v).symm, rfl⟩

theorem like_infix : like (.many :: (w.map .char ++ [.many])) t = true ↔ w <:+: t := by
  simp only [like_many, like_prefix]
  constructor
  · rintro ⟨u, _, rfl, v, rfl⟩
    exact ⟨u, v, List.append_assoc u w v⟩
  · rintro ⟨u, v, rfl⟩
    exact ⟨u, w ++ v, List.append_assoc u w v, v, rfl⟩

section Written

/-- The pattern a text writes, behind an escape or not, where `escape` is what a character is escaped
by, if anything: there is none where the escape is the last of it. -/
def wildsFrom (escape : Option Char) : Bool → List Char → Option (List (Wild Char))
  | behind, [] => if behind then none else some []
  | true, c :: t => (wildsFrom escape false t).map (.char c :: ·)
  | false, c :: t =>
    if escape = some c then wildsFrom escape true t
    else if c = '%' then (wildsFrom escape false t).map (.many :: ·)
    else if c = '_' then (wildsFrom escape false t).map (.one :: ·)
    else (wildsFrom escape false t).map (.char c :: ·)

def wilds (escape : Option Char) (t : List Char) : Option (List (Wild Char)) := wildsFrom escape false t

/-- What a pattern reads in a way of its own. -/
def Special (escape : Option Char) (c : Char) : Prop := escape = some c ∨ c = '%' ∨ c = '_'

variable {escape : Option Char} {t u : List Char} {c : Char}

theorem wilds_plain (hc : ¬Special escape c) :
    wilds escape (c :: t) = (wilds escape t).map (.char c :: ·) := by
  unfold Special at hc
  push Not at hc
  rw [wilds, wildsFrom, if_neg hc.1, if_neg hc.2.1, if_neg hc.2.2]
  rfl

theorem wilds_escape (h : escape = some c) (x : Char) :
    wilds escape (c :: x :: t) = (wilds escape t).map (.char x :: ·) := by
  rw [wilds, wildsFrom, if_pos h]
  rfl

/-- Text that a pattern reads as it is. -/
theorem wilds_append (h : ∀ c ∈ t, ¬Special escape c) :
    wilds escape (t ++ u) = (wilds escape u).map (t.map .char ++ ·) := by
  induction t with
  | nil => simp
  | cons c t ih =>
    rw [List.cons_append, wilds_plain (h c List.mem_cons_self),
      ih fun x hx => h x (List.mem_cons_of_mem _ hx)]
    simp [Function.comp_def]

theorem wilds_percent (h : escape ≠ some '%') :
    wilds escape ('%' :: t) = (wilds escape t).map (.many :: ·) := by
  rw [wilds, wildsFrom, if_neg h, if_pos rfl]
  rfl

/-- A text with the escape before each character a pattern reads in a way of its own. -/
def escaped (escape : Char) (t : List Char) : List Char :=
  t.flatMap fun c => if c = escape ∨ c = '%' ∨ c = '_' then [escape, c] else [c]

/-- An escaped text stands for itself. -/
theorem wilds_escaped (escape : Char) (t u : List Char) :
    wilds (some escape) (escaped escape t ++ u) =
      (wilds (some escape) u).map (t.map .char ++ ·) := by
  induction t with
  | nil => simp [escaped]
  | cons c t ih =>
    have hrest : ∀ v, escaped escape (c :: t) ++ v =
        (if c = escape ∨ c = '%' ∨ c = '_' then [escape, c] else [c]) ++ (escaped escape t ++ v) := by
      simp [escaped]
    rw [hrest]
    split_ifs with hc
    · rw [List.cons_append, List.cons_append, List.nil_append, wilds_escape rfl, ih]
      simp [Function.comp_def]
    · have hplain : ¬Special (some escape) c := fun h => hc (h.imp_left fun he => (Option.some.inj he).symm)
      rw [List.cons_append, List.nil_append, wilds_plain hplain, ih]
      simp [Function.comp_def]

end Written
end FastKit.Text
