import FastKit.Text.Cuts
import FastKit.Text.Like
import FastKit.Text.Numerals
import FastKit.Text.Words

/-! # What a search term matches

A column that identifies is searched for a piece of itself, written as a pattern in which what was
typed stands for itself. The columns that are read are one document, searched word by word, each from
its start.
-/

namespace FastKit.Search
open Text

def operator (c : Char) : Bool := "+-<>()~*\"@:&|!\\%_".toList.contains c

def minTokenSize : ℕ := 3

def wordsOf (U : Characters) (term : List Char) : List (List Char) :=
  (words U.blank (collapsed (fun c => !operator c) ' ' false term)).filter (fun w => !w.isEmpty)

def tokensOf (U : Characters) (term : List Char) : List (List Char) :=
  (wordsOf U term).filter (fun w => minTokenSize ≤ w.length)

def phraseOf (U : Characters) (term : List Char) : List Char := [' '].intercalate (wordsOf U term)

/-- `text.replace(c, spelling)` -/
def replace (c : Char) (spelling t : List Char) : List Char :=
  t.flatMap (fun x => if x = c then spelling else [x])

/-- `lower(value) LIKE lower(pattern)`, where `fold` is how the database lowers a character. -/
def ilike (fold : Char → Char) (escape : Option Char) (pattern value : List Char) : Bool :=
  (wilds escape (pattern.map fold)).any (fun ps => like ps (value.map fold))

def contains (fold : Char → Char) (column : Option (List Char)) (term : List Char) : Bool :=
  let escaped := replace '_' ['\\', '_'] (replace '%' ['\\', '%'] (replace '\\' ['\\', '\\'] term))
  column.any (ilike fold (some '\\') ('%' :: (escaped ++ ['%'])))

def documentOf (columns : List (Option (List Char))) : List Char :=
  [' '].intercalate (columns.map (·.getD []))

/-- `TextMatch`, where a dialect has no search of its own. -/
def textMatch (fold : Char → Char) (columns : List (Option (List Char))) (tokens : List (List Char)) :
    Bool :=
  tokens.all (fun token => ilike fold none (token ++ ['%']) (documentOf columns) ||
    ilike fold none ('%' :: ' ' :: (token ++ ['%'])) (documentOf columns))

/-- `TextRank`, where a dialect has no search of its own: whether it is 1. -/
def textRank (fold : Char → Char) (columns : List (Option (List Char))) (phrase : List Char) : Bool :=
  ilike fold none ('%' :: (phrase ++ ['%'])) (documentOf columns)

/-- `CrudService.apply_search`, of a row by its columns that identify and the ones that are read. -/
def applySearch (U : Characters) (fold : Char → Char) (search : Option (List Char))
    (columns textColumns : List (Option (List Char))) : Bool :=
  let term := strip U.blank (search.getD [])
  if term.isEmpty then true
  else
    let tokens := tokensOf U term
    let conditions := columns.map (contains fold · term) ++
      if !textColumns.isEmpty && !tokens.isEmpty then [textMatch fold textColumns tokens] else []
    if conditions.isEmpty then true else conditions.any id

/-- `CrudService.search_ordering`, of a row: what it is ranked by where nothing else is asked for. -/
def searchRank (U : Characters) (fold : Char → Char) (search ordering : Option (List Char))
    (textColumns : List (Option (List Char))) : ℕ :=
  let phrase := phraseOf U (search.getD [])
  if !(ordering.getD []).isEmpty || phrase.isEmpty || textColumns.isEmpty then 0
  else if textRank fold textColumns phrase then 1 else 0

/-- Lowering a character moves none that a pattern reads in a way of its own, and nothing to one. -/
structure Folds (fold : Char → Char) : Prop where
  percent : ∀ c, fold c = '%' ↔ c = '%'
  underscore : ∀ c, fold c = '_' ↔ c = '_'
  backslash : ∀ c, fold c = '\\' ↔ c = '\\'
  blank : fold ' ' = ' '

variable {U : Characters} {fold : Char → Char} {escape : Option Char} {term w value : List Char} {c : Char}
  {columns textColumns : List (Option (List Char))} {search : Option (List Char)}

theorem Folds.special (hf : Folds fold) :
    (fold c = '\\' ∨ fold c = '%' ∨ fold c = '_') ↔ c = '\\' ∨ c = '%' ∨ c = '_' :=
  or_congr (hf.backslash c) (or_congr (hf.percent c) (hf.underscore c))

/-- The backslashes are doubled before any is added. -/
theorem replace_eq_escaped :
    replace '_' ['\\', '_'] (replace '%' ['\\', '%'] (replace '\\' ['\\', '\\'] term)) =
      escaped '\\' term := by
  simp only [replace, escaped, List.flatMap_assoc]
  refine List.flatMap_congr fun c _ => ?_
  by_cases hslash : c = '\\'
  · subst hslash
    rfl
  · by_cases hpercent : c = '%'
    · subst hpercent
      rfl
    · by_cases hone : c = '_'
      · subst hone
        rfl
      · simp [hslash, hpercent, hone]

theorem map_escaped (hf : Folds fold) : (escaped '\\' term).map fold = escaped '\\' (term.map fold) := by
  have hslash : fold '\\' = '\\' := (hf.backslash _).mpr rfl
  simp only [escaped, List.map_flatMap, List.flatMap_map]
  refine List.flatMap_congr fun c _ => ?_
  simp only [hf.special]
  split_ifs <;> simp [hslash]

/-- What was typed is found as it was typed. -/
theorem contains_iff (hf : Folds fold) : contains fold (some value) term = true ↔
    term.map fold <:+: value.map fold := by
  have hpercent : fold '%' = '%' := (hf.percent _).mpr rfl
  have hpattern : wilds (some '\\') (('%' :: (escaped '\\' term ++ ['%'])).map fold) =
      some (.many :: ((term.map fold).map .char ++ [.many])) := by
    rw [List.map_cons, List.map_append, map_escaped hf, hpercent, wilds_percent (by decide), wilds_escaped,
      List.map_cons, hpercent]
    rfl
  rw [contains, replace_eq_escaped, Option.any_some, ilike, hpattern, Option.any_some]
  exact like_infix

/-- The words of a term are what stands between its blanks and the operators of the dialects. -/
theorem wordsOf_eq (hblank : U.blank ' ' = true) :
    wordsOf U term = words (fun c => U.blank c || operator c) term := by
  unfold wordsOf
  rw [words_collapsed hblank]
  simp only [Bool.not_not]
  refine List.filter_eq_self.mpr fun w hw => ?_
  simpa using (mem_words hw).1

/-- A pattern reads a word as it is. -/
theorem plain_of_mem (hf : Folds fold) (hblank : U.blank ' ' = true) (hw : w ∈ wordsOf U term) :
    ∀ c ∈ w.map fold, ¬Special none c := by
  intro c hc hspecial
  obtain ⟨x, hx, rfl⟩ := List.mem_map.mp hc
  rw [wordsOf_eq hblank] at hw
  have hkept := (mem_words hw).2 x hx
  rw [Bool.or_eq_false_iff] at hkept
  rcases hspecial with hnone | hpercent | hone
  · cases hnone
  · rw [(hf.percent x).mp hpercent] at hkept
    exact absurd hkept.2 (by decide)
  · rw [(hf.underscore x).mp hone] at hkept
    exact absurd hkept.2 (by decide)

section Plain
variable (hf : Folds fold) (hplain : ∀ c ∈ w.map fold, ¬Special none c)
include hf hplain

theorem wilds_plain_percent :
    wilds none ((w ++ ['%']).map fold) = some ((w.map fold).map .char ++ [.many]) := by
  have hpercent : fold '%' = '%' := (hf.percent _).mpr rfl
  rw [List.map_append, wilds_append hplain, List.map_cons, hpercent]
  rfl

theorem ilike_prefix : ilike fold none (w ++ ['%']) value = true ↔ w.map fold <+: value.map fold := by
  rw [ilike, wilds_plain_percent hf hplain, Option.any_some]
  exact like_prefix

theorem ilike_infix :
    ilike fold none ('%' :: (w ++ ['%'])) value = true ↔ w.map fold <:+: value.map fold := by
  have hpercent : fold '%' = '%' := (hf.percent _).mpr rfl
  have hpattern : wilds none (('%' :: (w ++ ['%'])).map fold) =
      some (.many :: ((w.map fold).map .char ++ [.many])) := by
    rw [List.map_cons, hpercent, wilds_percent (by simp), wilds_plain_percent hf hplain]
    rfl
  rw [ilike, hpattern, Option.any_some]
  exact like_infix

end Plain

/-- A document has a word that begins so. -/
def Begins (w doc : List Char) : Prop := w <+: doc ∨ ' ' :: w <:+: doc

instance (w doc : List Char) : Decidable (Begins w doc) :=
  inferInstanceAs (Decidable (_ ∨ _))

/-- A document is found where each word that is searched for begins one of its own. -/
theorem textMatch_iff (hf : Folds fold) (hblank : U.blank ' ' = true) :
    textMatch fold columns (tokensOf U term) = true ↔ ∀ w ∈ words (fun c => U.blank c || operator c) term,
      minTokenSize ≤ w.length → Begins (w.map fold) ((documentOf columns).map fold) := by
  have hword : ∀ w ∈ wordsOf U term, (ilike fold none (w ++ ['%']) (documentOf columns) ||
      ilike fold none ('%' :: ' ' :: (w ++ ['%'])) (documentOf columns)) = true ↔
        Begins (w.map fold) ((documentOf columns).map fold) := by
    intro w hw
    have hplain := plain_of_mem hf hblank hw
    have hspaced : ∀ c ∈ (' ' :: w).map fold, ¬Special none c := by
      rw [List.map_cons, hf.blank]
      intro c hc
      rcases List.mem_cons.mp hc with rfl | hc
      · simp [Special]
      · exact hplain c hc
    have hinfix : ilike fold none ('%' :: (' ' :: w ++ ['%'])) (documentOf columns) = true ↔ _ :=
      ilike_infix hf hspaced
    rw [Bool.or_eq_true, ilike_prefix hf hplain, ← List.cons_append, hinfix, List.map_cons, hf.blank]
    rfl
  simp only [textMatch, List.all_eq_true, tokensOf, List.mem_filter, decide_eq_true_eq]
  rw [← wordsOf_eq hblank]
  constructor
  · intro h w hw hlength
    exact (hword w hw).mp (h w ⟨hw, hlength⟩)
  · rintro h w ⟨hw, hlength⟩
    exact (hword w hw).mpr (h w hw hlength)

/-- A pattern reads a phrase as it is. -/
theorem plain_phrase (hf : Folds fold) (hblank : U.blank ' ' = true) :
    ∀ c ∈ (phraseOf U term).map fold, ¬Special none c := by
  intro c hc
  obtain ⟨x, hx, rfl⟩ := List.mem_map.mp hc
  rcases mem_of_mem_intercalate hx with hjoint | ⟨w, hw, hxw⟩
  · obtain rfl := List.mem_singleton.mp hjoint
    simp [Special, hf.blank]
  · exact plain_of_mem hf hblank hw _ (List.mem_map_of_mem hxw)

theorem contains_any (hf : Folds fold) : columns.any (contains fold · term) = true ↔
    ∃ value, some value ∈ columns ∧ term.map fold <:+: value.map fold := by
  simp only [List.any_eq_true]
  constructor
  · rintro ⟨column, hcolumn, h⟩
    cases column with
    | none => cases h
    | some value => exact ⟨value, hcolumn, (contains_iff hf).mp h⟩
  · rintro ⟨value, hcolumn, h⟩
    exact ⟨some value, hcolumn, (contains_iff hf).mpr h⟩

/-- What a search answers: of the columns that identify, a piece that reads as what was typed, or of the
columns that are read, words that begin with all the words that were typed and are not too short. What
holds the phrase that was typed comes first, unless another order was asked for. -/
theorem search_answers (hf : Folds fold) (hblank : U.blank ' ' = true)
    (hterm : strip U.blank (search.getD []) = term) (ordering : Option (List Char)) :
    (applySearch U fold search columns textColumns = true ↔ term = [] ∨
      (columns = [] ∧ (textColumns = [] ∨ tokensOf U term = [])) ∨
      (∃ value, some value ∈ columns ∧ term.map fold <:+: value.map fold) ∨
      (textColumns ≠ [] ∧ tokensOf U term ≠ [] ∧
        ∀ w ∈ words (fun c => U.blank c || operator c) term, minTokenSize ≤ w.length →
          Begins (w.map fold) ((documentOf textColumns).map fold))) ∧
    (searchRank U fold search ordering textColumns = 1 ↔ ordering.getD [] = [] ∧ textColumns ≠ [] ∧
      phraseOf U (search.getD []) ≠ [] ∧
      (phraseOf U (search.getD [])).map fold <:+: (documentOf textColumns).map fold) := by
  subst hterm
  constructor
  · rw [← contains_any hf, ← textMatch_iff hf hblank]
    simp only [applySearch]
    generalize strip U.blank (search.getD []) = term
    by_cases hempty : term = []
    · simp [hempty]
    · cases columns <;> by_cases htext : textColumns = [] <;> by_cases htokens : tokensOf U term = [] <;>
        simp [hempty, htext, htokens, or_assoc]
  · have hrank : textRank fold textColumns (phraseOf U (search.getD [])) = true ↔ _ :=
      ilike_infix hf (plain_phrase hf hblank)
    rw [← hrank]
    simp only [searchRank]
    by_cases hasked : ordering.getD [] = [] <;> by_cases htext : textColumns = [] <;>
      by_cases hphrase : phraseOf U (search.getD []) = [] <;> simp [hasked, htext, hphrase]

/-- A character that is no letter is lowered from itself alone. -/
theorem toLower_eq {p : Char} (hp : p.toNat < 65 ∨ 90 < p.toNat ∧ p.toNat < 97) (c : Char) :
    c.toLower = p ↔ c = p := by
  unfold Char.toLower
  split_ifs with h
  · have hleast : 65 ≤ c.toNat := h.1
    have hmost : c.toNat ≤ 90 := h.2
    have hlowered : (c.val + ('a'.val - 'A'.val)).toNat = c.toNat + 32 := by
      have hstep : ('a'.val - 'A'.val).toNat = 32 := by decide
      have hval : c.val.toNat = c.toNat := rfl
      rw [UInt32.toNat_add]
      omega
    constructor
    · rintro rfl
      have hmoved : c.toNat + 32 < 65 ∨ 90 < c.toNat + 32 ∧ c.toNat + 32 < 97 := hlowered ▸ hp
      omega
    · rintro rfl
      omega
  · rfl

theorem folds_toLower : Folds Char.toLower :=
  ⟨toLower_eq (by decide), toLower_eq (by decide), toLower_eq (by decide), rfl⟩

/-- `50%` is found where it stands, and stands for nothing else. A prose is found by the words
its own begin with, and comes first where it holds the phrase. -/
theorem search_answers_percent :
    (applySearch ascii Char.toLower (some " 50% ".toList) [some "SAVE50%".toList] [] = true ∧
      applySearch ascii Char.toLower (some "50%".toList) [some "5000".toList] [] ≠ true) ∧
    applySearch ascii Char.toLower (some "gui field".toList) [] [some "The Field Guide".toList] = true ∧
    searchRank ascii Char.toLower (some "field gui".toList) none [some "The Field Guide".toList] = 1 ∧
    searchRank ascii Char.toLower (some "gui field".toList) none [some "The Field Guide".toList] ≠ 1 := by
  have hblank : ascii.blank ' ' = true := by decide
  refine ⟨⟨?_, fun h => ?_⟩, ?_, ?_, fun h => ?_⟩
  · refine (search_answers folds_toLower hblank rfl none).1.mpr (.inr (.inr (.inl ?_)))
    exact ⟨"SAVE50%".toList, List.mem_singleton_self _, by decide⟩
  · rcases (search_answers folds_toLower hblank rfl none).1.mp h with
      hempty | ⟨hnone, -⟩ | ⟨value, hvalue, hfound⟩ | ⟨hnone, -⟩
    · exact absurd hempty (by decide)
    · cases hnone
    · obtain rfl := Option.some.inj (List.mem_singleton.mp hvalue)
      exact absurd hfound (by decide)
    · exact hnone rfl
  · refine (search_answers folds_toLower hblank rfl none).1.mpr (.inr (.inr (.inr ?_)))
    exact ⟨by decide, by decide, by decide⟩
  · have hranked : (applySearch ascii Char.toLower (some "field gui".toList) []
        [some "The Field Guide".toList] = true ↔ _) ∧ _ :=
      search_answers folds_toLower hblank rfl none
    exact hranked.2.mpr ⟨rfl, by decide, by decide, by decide⟩
  · have hranked : (applySearch ascii Char.toLower (some "gui field".toList) []
        [some "The Field Guide".toList] = true ↔ _) ∧ _ :=
      search_answers folds_toLower hblank rfl none
    exact absurd (hranked.2.mp h).2.2.2 (by decide)

end FastKit.Search
