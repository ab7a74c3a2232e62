import FastKit.Text.Collapse

/-! # Words of a text

The runs of a text between the blanks of it. What a text keeps is cut into the words it is cut into
where what it does not keep is blank too.
-/

namespace FastKit.Text
variable {α : Type}

/-- A word that was read, where one was. -/
def finished (word : List α) : List (List α) := if word.isEmpty then [] else [word]

/-- The words of a text, `word` what was read of the one it is in. -/
def wordsFrom (blank : α → Bool) (word : List α) : List α → List (List α)
  | [] => finished word
  | x :: t =>
    if blank x then finished word ++ wordsFrom blank [] t else wordsFrom blank (word ++ [x]) t

def words (blank : α → Bool) (t : List α) : List (List α) := wordsFrom blank [] t

variable {blank keep : α → Bool} {sep x : α} {inside : Bool} {t w word : List α}

theorem mem_finished : w ∈ finished word ↔ w = word ∧ w ≠ [] := by
  unfold finished
  split_ifs with h
  · obtain rfl := List.isEmpty_iff.mp h
    simp
  · rw [List.mem_singleton]
    refine (and_iff_left_of_imp ?_).symm
    rintro rfl
    simpa using h

theorem mem_wordsFrom (hword : ∀ x ∈ word, blank x = false) (h : w ∈ wordsFrom blank word t) :
    w ≠ [] ∧ ∀ x ∈ w, blank x = false := by
  induction t generalizing word with
  | nil =>
    obtain ⟨rfl, hne⟩ := mem_finished.mp h
    exact ⟨hne, hword⟩
  | cons x t ih =>
    rw [wordsFrom] at h
    split_ifs at h with hblank
    · rcases List.mem_append.mp h with hw | hw
      · obtain ⟨rfl, hne⟩ := mem_finished.mp hw
        exact ⟨hne, hword⟩
      · exact ih (by simp) hw
    · refine ih (fun y hy => ?_) h
      rcases List.mem_append.mp hy with hy | hy
      · exact hword y hy
      · obtain rfl := List.mem_singleton.mp hy
        exact Bool.eq_false_iff.mpr hblank

/-- A word has no blank in it. -/
theorem mem_words (h : w ∈ words blank t) : w ≠ [] ∧ ∀ x ∈ w, blank x = false :=
  mem_wordsFrom (by simp) h

/-- Where runs of what is not kept become one blank, they part words as blanks do. -/
theorem wordsFrom_collapsed (hsep : blank sep = true) (hinside : inside = true → word = []) :
    wordsFrom blank word (collapsed keep sep inside t) =
      wordsFrom (fun x => blank x || !keep x) word t := by
  induction t generalizing word inside with
  | nil => rfl
  | cons x t ih =>
    cases hx : keep x with
    | true =>
      rw [collapsed_kept hx, wordsFrom, wordsFrom, hx, Bool.not_true, Bool.or_false]
      rw [ih (by simp), ih (by simp)]
    | false =>
      have hpart : (blank x || !keep x) = true := by simp [hx]
      cases inside with
      | true =>
        rw [collapsed_run hx, wordsFrom, if_pos hpart, hinside rfl]
        exact ih fun _ => rfl
      | false =>
        rw [collapsed_start hx, wordsFrom, wordsFrom, if_pos hsep, if_pos hpart]
        rw [ih fun _ => rfl]

/-- What joined texts hold is in one of them, or in what joins them. -/
theorem mem_of_mem_intercalate {joint : List α} {parts : List (List α)} (h : x ∈ joint.intercalate parts) :
    x ∈ joint ∨ ∃ part ∈ parts, x ∈ part := by
  induction parts with
  | nil => simp at h
  | cons part parts ih =>
    cases parts with
    | nil =>
      rw [List.intercalate_singleton] at h
      exact .inr ⟨part, List.mem_singleton_self _, h⟩
    | cons next parts =>
      rw [List.intercalate_cons_cons, List.mem_append, List.mem_append] at h
      rcases h with (h | h) | h
      · exact .inr ⟨part, List.mem_cons_self, h⟩
      · exact .inl h
      · refine (ih h).imp_right ?_
        rintro ⟨w, hw, hx⟩
        exact ⟨w, List.mem_cons_of_mem _ hw, hx⟩

theorem words_collapsed (hsep : blank sep = true) :
    words blank (collapsed keep sep false t) = words (fun x => blank x || !keep x) t :=
  wordsFrom_collapsed hsep (by simp)

end FastKit.Text
