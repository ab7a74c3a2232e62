import FastKit.Text.Cuts

/-! # Addresses as a browser resolves them

What a browser makes of an address that begins at the root of a site: it takes blanks off the ends
and tabs and line breaks out, reads a backslash as a slash, and walks the segments of the path one
character at a time, up where one says so. The second half says the same of whole segments.
-/

namespace FastKit.Urls

open Text (strip)

/-- The characters of a path a browser writes in percents. -/
def inPathSet (c : Char) : Bool :=
  c.toNat < 0x20 || 0x7e < c.toNat ||
    [' ', '"', '#', '<', '>', '?', '^', Char.ofNat 96, Char.ofNat 123, Char.ofNat 125].contains c

def hexDigit (n : ℕ) : Char := Char.ofNat (if n < 10 then 48 + n else 55 + n)

def percentEncoded (c : Char) : List Char :=
  if inPathSet c then
    (String.utf8EncodeChar c).flatMap fun b => ['%', hexDigit (b.toNat / 16), hexDigit (b.toNat % 16)]
  else [c]

def singleDot (buffer : List Char) : Bool :=
  [['.'], ['%', '2', 'e']].contains (buffer.map Char.toLower)

def doubleDot (buffer : List Char) : Bool :=
  [['.', '.'], ['.', '%', '2', 'e'], ['%', '2', 'e', '.'], ['%', '2', 'e', '%', '2', 'e']].contains
    (buffer.map Char.toLower)

/-- A path after one more segment, behind which a slash may stand. -/
def closed (path : List (List Char)) (buffer : List Char) (slash : Bool) : List (List Char) :=
  if doubleDot buffer then if slash then path.dropLast else path.dropLast ++ [[]]
  else if singleDot buffer then if slash then path else path ++ [[]]
  else path ++ [buffer]

/-- The segments of a path, from those walked and the one that is being read. -/
def pathState (path : List (List Char)) (buffer : List Char) : List Char → List (List Char)
  | [] => closed path buffer false
  | c :: t =>
    if c = '/' ∨ c = '\\' then pathState (closed path buffer true) [] t
    else if c = '?' ∨ c = '#' then closed path buffer false
    else pathState path (buffer ++ percentEncoded c) t

def pathText (path : List (List Char)) : List Char := path.flatMap ('/' :: ·)

/-- An address as it is read, without the blanks at its ends and without tabs and line breaks. -/
def cleaned (t : List Char) : List Char :=
  (strip (fun c => c.toNat ≤ 0x20) t).filter fun c => c != '\t' && c != '\n' && c != '\r'

/-- The path of an address that begins at the root of a site. Any other address names a place by
another path or, behind a second slash, another site. -/
def resolved (t : List Char) : Option (List Char) :=
  match cleaned t with
  | '/' :: rest =>
    if rest.head? = some '/' ∨ rest.head? = some '\\' then none
    else some (pathText (pathState [] [] rest))
  | _ => none

/-! ## Whole segments -/

/-- The part of an address in front of its query and its fragment. -/
def cut (t : List Char) : List Char := t.takeWhile fun c => c != '?' && c != '#'

def segments (t : List Char) : List (List Char) :=
  (t.splitOnP fun c => c == '/' || c == '\\').map (List.flatMap percentEncoded)

def walk (path : List (List Char)) : List (List Char) → List (List Char)
  | [] => path
  | [last] => closed path last false
  | s :: rest => walk (closed path s true) rest

theorem segments_ne_nil (t : List Char) : segments t ≠ [] := by
  simp [segments, List.splitOnP_ne_nil]

theorem walk_cons {path ss : List (List Char)} (s : List Char) (hs : ss ≠ []) :
    walk path (s :: ss) = walk (closed path s true) ss := by
  cases ss with
  | nil => exact absurd rfl hs
  | cons => rfl

theorem segments_cons (c : Char) (t : List Char) : segments (c :: t) =
    if c = '/' ∨ c = '\\' then [] :: segments t
    else (segments t).modifyHead (percentEncoded c ++ ·) := by
  have hc : (c == '/' || c == '\\') = true ↔ c = '/' ∨ c = '\\' := by simp
  rw [segments, List.splitOnP_cons_eq_if_modifyHead]
  by_cases h : c = '/' ∨ c = '\\'
  · rw [if_pos (hc.mpr h), if_pos h]
    rfl
  · rw [if_neg (mt hc.mp h), if_neg h, segments]
    cases t.splitOnP fun c => c == '/' || c == '\\' <;> rfl

theorem cut_cons {c : Char} (h : ¬ (c = '?' ∨ c = '#')) (t : List Char) :
    cut (c :: t) = c :: cut t := by
  rw [cut, List.takeWhile_cons_of_pos (by simpa using h), cut]

theorem modifyHead_nil_append (ss : List (List Char)) : ss.modifyHead ([] ++ ·) = ss := by
  cases ss <;> rfl

/-- Reading a path one character at a time walks its segments. -/
theorem pathState_eq (path : List (List Char)) (buffer t : List Char) :
    pathState path buffer t = walk path ((segments (cut t)).modifyHead (buffer ++ ·)) := by
  induction t generalizing path buffer with
  | nil => simp [pathState, cut, segments, walk]
  | cons c t ih =>
    rw [pathState]
    by_cases hs : c = '/' ∨ c = '\\'
    · have hq : ¬ (c = '?' ∨ c = '#') := by
        obtain rfl | rfl := hs <;> decide
      rw [if_pos hs, cut_cons hq, segments_cons, if_pos hs, List.modifyHead_cons, List.append_nil,
        walk_cons _ (segments_ne_nil _), ih, modifyHead_nil_append]
    · rw [if_neg hs]
      by_cases hq : c = '?' ∨ c = '#'
      · have hcut : cut (c :: t) = [] := by
          rw [cut, List.takeWhile_cons_of_neg]
          obtain rfl | rfl := hq <;> decide
        rw [if_pos hq, hcut]
        simp [segments, walk]
      · rw [if_neg hq, cut_cons hq, segments_cons, if_neg hs, ih, List.modifyHead_modifyHead]
        congr 2
        funext s
        simp

/-- A segment that moves the path instead of becoming part of it. -/
def dotSegment (s : List Char) : Bool := singleDot s || doubleDot s

/-- A path without dot segments is its segments. -/
theorem walk_eq_append {ss : List (List Char)} (h : ∀ s ∈ ss, dotSegment s = false)
    (path : List (List Char)) : walk path ss = path ++ ss := by
  have hclosed {s : List Char} (hs : dotSegment s = false) (path : List (List Char)) (slash : Bool) :
      closed path s slash = path ++ [s] := by
    rw [dotSegment, Bool.or_eq_false_iff] at hs
    simp [closed, hs.1, hs.2]
  induction ss generalizing path with
  | nil => simp [walk]
  | cons s ss ih =>
    have hs := hclosed (h s List.mem_cons_self)
    have ih := ih fun s hs => h s (List.mem_cons_of_mem _ hs)
    by_cases hne : ss = []
    · subst hne
      exact hs path false
    · rw [walk_cons _ hne, hs, ih]
      simp

/-- The text of the segments of a path without backslashes is the path. -/
theorem pathText_segments {t : List Char} (h : '\\' ∉ t) :
    pathText (segments t) = '/' :: t.flatMap percentEncoded := by
  induction t with
  | nil => rfl
  | cons c t ih =>
    rw [List.mem_cons, not_or] at h
    have ih := ih h.2
    rw [segments_cons]
    by_cases hc : c = '/' ∨ c = '\\'
    · obtain rfl : c = '/' := hc.resolve_right (Ne.symm h.1)
      rw [if_pos hc, pathText, List.flatMap_cons, ← pathText, ih]
      rfl
    · rw [if_neg hc]
      obtain ⟨s, ss, hss⟩ := List.exists_cons_of_ne_nil (segments_ne_nil t)
      rw [hss] at ih ⊢
      simpa [pathText] using ih

/-- A text without blanks has nothing to clean. -/
theorem cleaned_eq {t : List Char} (h : ∀ c ∈ t, 0x20 < c.toNat) : cleaned t = t := by
  have hblank : ∀ c ∈ t, ¬ decide (c.toNat ≤ 0x20) = true := fun c hc => by
    have := h c hc
    simpa using this
  have hdrop : t.dropWhile (fun c => c.toNat ≤ 0x20) = t := by
    rw [List.dropWhile_eq_self_iff]
    exact fun hl => hblank _ (List.getElem_mem hl)
  have hrdrop : t.rdropWhile (fun c => c.toNat ≤ 0x20) = t := by
    rw [List.rdropWhile_eq_self_iff]
    exact fun hl => hblank _ (List.getLast_mem hl)
  rw [cleaned, strip, hdrop, hrdrop, List.filter_eq_self]
  intro c hc
  have hlt := h c hc
  simp only [Bool.and_eq_true, bne_iff_ne, ne_eq]
  refine ⟨⟨?_, ?_⟩, ?_⟩ <;> rintro rfl <;> exact absurd hlt (by decide)

/-- An address at the root of a site leads to its segments walked. -/
theorem resolved_eq {t : List Char} (h : ∀ c ∈ t, 0x20 < c.toNat) (hs : t.head? ≠ some '/')
    (hb : t.head? ≠ some '\\') :
    resolved ('/' :: t) = some (pathText (walk [] (segments (cut t)))) := by
  have hclean : cleaned ('/' :: t) = '/' :: t :=
    cleaned_eq (List.forall_mem_cons.mpr ⟨by decide, h⟩)
  simp only [resolved, hclean]
  rw [if_neg (by simp [hs, hb]), pathState_eq, modifyHead_nil_append]

/-! ## Plain texts -/

/-- A character that stands in a path as itself, and as nothing else. -/
def PlainChar (c : Char) : Prop := inPathSet c = false ∧ c ≠ '%'

theorem percentEncoded_cases (c : Char) :
    percentEncoded c = [c] ∨ (inPathSet c = true ∧ ∃ t, percentEncoded c = '%' :: t) := by
  rw [percentEncoded]
  by_cases h : inPathSet c = true
  · rw [if_pos h]
    obtain ⟨b, bs, hb⟩ := List.exists_cons_of_ne_nil (String.utf8EncodeChar_ne_nil (c := c))
    exact .inr ⟨h, by simp [hb]⟩
  · rw [if_neg h]
    exact .inl rfl

/-- A plain text stands at the front of a path where it stands at the front of what the path is
written from. -/
theorem plain_prefix_flatMap {o : List Char} (ho : ∀ c ∈ o, PlainChar c) (t : List Char) :
    o <+: t.flatMap percentEncoded ↔ o <+: t := by
  induction o generalizing t with
  | nil => simp
  | cons d o ih =>
    obtain ⟨hd, ho⟩ := List.forall_mem_cons.mp ho
    cases t with
    | nil => simp
    | cons c t =>
      rw [List.flatMap_cons]
      obtain h | ⟨hc, u, hu⟩ := percentEncoded_cases c
      · rw [h, List.singleton_append, List.cons_prefix_cons, List.cons_prefix_cons, ih ho]
      · rw [hu, List.cons_append, List.cons_prefix_cons, List.cons_prefix_cons]
        constructor
        · rintro ⟨rfl, -⟩
          exact absurd rfl hd.2
        · rintro ⟨rfl, -⟩
          exact absurd hc (by simp [hd.1])

theorem plain_eq_flatMap {o : List Char} (ho : ∀ c ∈ o, PlainChar c) (t : List Char) :
    t.flatMap percentEncoded = o ↔ t = o := by
  induction o generalizing t with
  | nil =>
    cases t with
    | nil => simp
    | cons c t =>
      obtain h | ⟨-, u, hu⟩ := percentEncoded_cases c
      · simp [h]
      · simp [hu]
  | cons d o ih =>
    obtain ⟨hd, ho⟩ := List.forall_mem_cons.mp ho
    cases t with
    | nil => simp
    | cons c t =>
      rw [List.flatMap_cons]
      obtain h | ⟨hc, u, hu⟩ := percentEncoded_cases c
      · rw [h, List.singleton_append, List.cons.injEq, List.cons.injEq, ih ho]
      · rw [hu, List.cons_append, List.cons.injEq, List.cons.injEq]
        constructor
        · rintro ⟨rfl, -⟩
          exact absurd rfl hd.2
        · rintro ⟨rfl, -⟩
          exact absurd hc (by simp [hd.1])

/-- What stands in front of a query is what stands in front of a fragment too, or it goes on with
the fragment. -/
theorem before_cases (t : List Char) : Text.before '?' t = cut t ∨
    (cut t ++ ['#'] <+: t ∧ cut t <+: Text.before '?' t) := by
  induction t with
  | nil => exact .inl rfl
  | cons c t ih =>
    by_cases hq : c = '?'
    · subst hq
      exact .inl rfl
    · have hb : Text.before '?' (c :: t) = c :: Text.before '?' t := by
        rw [Text.before, List.takeWhile_cons_of_pos (by simpa using hq), Text.before]
      by_cases hf : c = '#'
      · subst hf
        refine .inr ⟨?_, ?_⟩ <;> simp [cut]
      · rw [hb, cut_cons (by simp [hq, hf])]
        obtain h | ⟨h₁, h₂⟩ := ih
        · exact .inl (by rw [h])
        · exact .inr ⟨by simpa using h₁, by simpa using h₂⟩

end FastKit.Urls
