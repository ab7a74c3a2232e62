import Mathlib.Data.List.DropRight
import Mathlib.Tactic.Common

/-! # Texts cut at a separator

A text cut at the first separator in it, what stands before it and what stands beyond it, and a
text without the blanks around it.
-/

namespace FastKit.Text

variable {α : Type} [DecidableEq α] {sep : α} {t u v : List α}

/-- What stands before the first separator, all of the text where it has none. -/
def before (sep : α) (t : List α) : List α := t.takeWhile (· != sep)

def beyond (sep : α) (t : List α) : List α := (t.dropWhile (· != sep)).tail

theorem ne_of_not_mem (h : sep ∉ u) : ∀ x ∈ u, (x != sep) = true := by
  intro x hx
  rw [bne_iff_ne]
  rintro rfl
  exact h hx

@[simp] theorem before_append (h : sep ∉ u) : before sep (u ++ sep :: v) = u := by
  simp [before, List.takeWhile_append_of_pos (ne_of_not_mem h)]

@[simp] theorem beyond_append (h : sep ∉ u) : beyond sep (u ++ sep :: v) = v := by
  simp [beyond, List.dropWhile_append_of_pos (ne_of_not_mem h)]

theorem before_of_not_mem (h : sep ∉ t) : before sep t = t :=
  List.takeWhile_eq_self_iff.mpr (ne_of_not_mem h)

theorem beyond_of_not_mem (h : sep ∉ t) : beyond sep t = [] := by
  rw [beyond, List.dropWhile_eq_nil_iff.mpr (ne_of_not_mem h), List.tail_nil]

/-- A text with a separator is what stands before it, the separator and what stands beyond it. -/
theorem before_append_beyond (h : sep ∈ t) : before sep t ++ sep :: beyond sep t = t := by
  obtain ⟨u, v, rfl, hu⟩ := List.eq_append_cons_of_mem h
  rw [before_append hu, beyond_append hu]

/-- A text without the blanks around it. -/
def strip (blank : α → Bool) (t : List α) : List α := (t.dropWhile blank).rdropWhile blank

instance decidableEqBytes : DecidableEq ByteArray :=
  fun _ _ => decidable_of_iff _ ByteArray.ext_iff.symm

def encoded (t : List Char) : ByteArray := (String.ofList t).toUTF8

theorem encoded_inj {t u : List Char} : encoded t = encoded u ↔ t = u := by
  rw [encoded, encoded, String.toUTF8_eq_toByteArray, String.toUTF8_eq_toByteArray,
    String.toByteArray_inj, String.ofList_inj]

end FastKit.Text
