import FastKit.Uploads.Names

/-! # What a key names

A key names its file by the UUID drawn for it. The name somebody uploaded is read once more after
its own UUIDs went, and what the reading makes of the rest may be a UUID again.
-/

namespace FastKit.Uploads
open Text

/-- Groups of lowercase hexadecimal digits, with anything but letters and digits between them. -/
def Spells : List ℕ → List Char → Prop
  | [], w => w = []
  | [n], w => w.length = n ∧ ∀ c ∈ w, lowerHex c = true
  | n :: rest, w => ∃ a g v, w = a ++ g ++ v ∧ (a.length = n ∧ ∀ c ∈ a, lowerHex c = true) ∧
      (g ≠ [] ∧ Gap slugChar g) ∧ Spells rest v

/-- How much of a name a key gives to what stands before a place of it. -/
def room (x : List Char) : ℕ := ((collapsed slugChar '-' false x).dropWhile dash).length

/-- The plain name of a file, once its UUIDs went, spells another one within the limit. -/
def Respells (U : Unicode) (filename : List Char) : Prop :=
  ∃ x w y, plain U (replaced named '-' 0 (splitext filename).1) = x ++ w ++ y ∧
    Spells [8, 4, 4, 4, 12] w ∧ room x + named.length ≤ nameLimit

theorem named_ne_nil : named ≠ [] := by decide

theorem slugChar_of_lowerHex {c : Char} (h : lowerHex c = true) : slugChar c = true := by
  simp only [lowerHex, slugChar, Bool.or_eq_true, Bool.and_eq_true, decide_eq_true_eq] at h ⊢
  rcases h with h | ⟨h, h'⟩
  · exact .inl h
  · exact .inr ⟨h, Char.le_trans h' (by decide)⟩

theorem hexDigit_of_lowerHex {c : Char} (h : lowerHex c = true) : hexDigit c = true := by
  rw [hexDigit, h, Bool.true_or]

/-- A hexadecimal digit a slug keeps is in lowercase. -/
theorem lowerHex_of_slugChar {c : Char} (h : hexDigit c = true) (hs : slugChar c = true) :
    lowerHex c = true := by
  simp only [hexDigit, lowerHex, slugChar, Bool.or_eq_true, Bool.and_eq_true,
    decide_eq_true_eq] at h hs ⊢
  rcases h with h | ⟨hA, hF⟩
  · exact h
  · rcases hs with hs | ⟨ha, -⟩
    · exact .inl hs
    · exact absurd (Char.le_trans ha hF) (by decide)

theorem slugChar_dash : slugChar '-' = false := by decide

theorem hexDigit_dash : hexDigit '-' = false := by decide

theorem fits_replicate {n : ℕ} {t : List Char} :
    Fits (List.replicate n hexDigit) t ↔ t.length = n ∧ ∀ c ∈ t, hexDigit c = true := by
  induction n generalizing t with
  | zero =>
    constructor
    · intro h
      cases h
      exact ⟨rfl, fun _ hc => absurd hc List.not_mem_nil⟩
    · rintro ⟨h, -⟩
      rw [List.eq_nil_of_length_eq_zero h]
      exact .nil
  | succ n ih =>
    constructor
    · intro h
      cases h with
      | cons hx ht =>
        obtain ⟨hlen, hall⟩ := ih.mp ht
        refine ⟨by rw [List.length_cons, hlen], fun c hc => ?_⟩
        rcases List.mem_cons.mp hc with rfl | hc
        · exact hx
        · exact hall c hc
    · rintro ⟨hlen, hall⟩
      cases t with
      | nil => cases hlen
      | cons x t =>
        exact .cons (hall x List.mem_cons_self)
          (ih.mpr ⟨Nat.succ.inj hlen, fun c hc => hall c (List.mem_cons_of_mem _ hc)⟩)

variable {U : Unicode} {w x y t u v : List Char} {inside : Bool}

/-- What a slug has of a run of hexadecimal digits is the digits. -/
theorem eq_of_hex (h : ∀ c ∈ u, hexDigit c = true) (hu : collapsed slugChar '-' false w = u) :
    w = u ∧ ∀ c ∈ u, lowerHex c = true := by
  have hsep : '-' ∉ u := fun hmem => by
    have hdash := h _ hmem
    rw [hexDigit_dash] at hdash
    cases hdash
  refine ⟨eq_of_collapsed hu hsep, fun c hc => ?_⟩
  rcases mem_collapsed (hu ▸ hc) with rfl | hs
  · exact absurd hc hsep
  · exact lowerHex_of_slugChar (h c hc) hs

/-- What spells a UUID reads as one. -/
theorem fits_of_spells {ns : List ℕ} (hpos : ∀ n ∈ ns, 0 < n) (h : Spells ns w) :
    Fits (groups ns) (collapsed slugChar '-' inside w) := by
  induction ns generalizing w inside with
  | nil =>
    obtain rfl : w = [] := h
    exact .nil
  | cons n rest ih =>
    cases rest with
    | nil =>
      obtain ⟨hlen, hall⟩ := h
      rw [collapsed_all fun c hc => slugChar_of_lowerHex (hall c hc)]
      exact fits_replicate.mpr ⟨hlen, fun c hc => hexDigit_of_lowerHex (hall c hc)⟩
    | cons m rest =>
      obtain ⟨a, g, v, rfl, ⟨hlen, hall⟩, ⟨hg, hgap⟩, hv⟩ := h
      have ha : a ≠ [] := List.length_pos_iff.mp (hlen ▸ hpos n List.mem_cons_self)
      have hkept : ∀ c ∈ a, slugChar c = true := fun c hc => slugChar_of_lowerHex (hall c hc)
      rw [List.append_assoc, collapsed_append, collapsed_all hkept, afterRun_all hkept ha,
        collapsed_gap_append hgap hg]
      refine fits_append (fits_replicate.mpr ⟨hlen, fun c hc => hexDigit_of_lowerHex (hall c hc)⟩)
        (.cons rfl ?_)
      exact ih (fun k hk => hpos k (List.mem_cons_of_mem _ hk)) hv

/-- What reads as a UUID spells one. -/
theorem spells_of_fits {ns : List ℕ} (hpos : ∀ n ∈ ns, 0 < n)
    (h : Fits (groups ns) (collapsed slugChar '-' false w)) : Spells ns w := by
  induction ns generalizing w with
  | nil =>
    generalize hu : collapsed slugChar '-' false w = u at h
    cases h
    exact eq_of_collapsed hu List.not_mem_nil
  | cons n rest ih =>
    cases rest with
    | nil =>
      obtain ⟨hlen, hall⟩ := fits_replicate.mp h
      obtain ⟨hw, hlow⟩ := eq_of_hex hall rfl
      rw [← hw] at hlen hlow
      exact ⟨hlen, hlow⟩
    | cons m rest =>
      obtain ⟨a, r, hu, ha, hr⟩ := exists_of_fits_append (P := List.replicate n hexDigit) h
      obtain ⟨hlen, hall⟩ := fits_replicate.mp ha
      -- the digits come from digits, which leave the reading outside a run
      obtain ⟨x, y, rfl, hx, hy⟩ := collapsed_split hu
      obtain ⟨rfl, hlow⟩ := eq_of_hex hall hx
      have hne : x ≠ [] := List.length_pos_iff.mp (hlen ▸ hpos n List.mem_cons_self)
      rw [afterRun_all (fun c hc => slugChar_of_lowerHex (hlow c hc)) hne] at hy
      cases hr with
      | @cons _ c _ r hc hr =>
        obtain rfl : c = '-' := beq_iff_eq.mp hc
        obtain ⟨d, y', rfl, hd, hy'⟩ : ∃ d y', y = d :: y' ∧ slugChar d = false ∧
            collapsed slugChar '-' true y' = r := by
          cases y with
          | nil => cases hy
          | cons d y' =>
            cases hd : slugChar d with
            | true =>
              rw [collapsed_kept hd] at hy
              obtain ⟨rfl, -⟩ := List.cons.inj hy
              rw [slugChar_dash] at hd
              cases hd
            | false =>
              rw [collapsed_start hd] at hy
              exact ⟨d, y', rfl, hd, (List.cons.inj hy).2⟩
        -- and the next digits come after the rest of the run
        obtain ⟨g, v, rfl, hg, hv⟩ := collapsed_inside slugChar '-' y'
        refine ⟨x, d :: g, v, by rw [List.append_assoc, List.cons_append], ⟨hlen, hlow⟩,
          ⟨List.cons_ne_nil _ _, ?_⟩, ?_⟩
        · intro z hz
          rcases List.mem_cons.mp hz with rfl | hz
          · exact hd
          · exact hg z hz
        · exact ih (fun k hk => hpos k (List.mem_cons_of_mem _ hk)) (by rwa [hv, hy'])

theorem named_pos : ∀ n ∈ [8, 4, 4, 4, 12], 0 < n := by decide

/-- A UUID starts and ends in a hexadecimal digit. -/
theorem ends_of_fits (h : Fits named u) : (∃ c v, u = c :: v ∧ dash c = false) ∧
    ∃ v c, u = v ++ [c] ∧ dash c = false := by
  have hex : ∀ c, hexDigit c = true → dash c = false := fun c hc => by
    cases hd : dash c with
    | false => rfl
    | true =>
      obtain rfl : c = '-' := beq_iff_eq.mp hd
      rw [hexDigit_dash] at hc
      cases hc
  constructor
  · cases h with
    | cons hc _ => exact ⟨_, _, rfl, hex _ hc⟩
  · obtain ⟨v, r, rfl, -, hr⟩ := exists_of_fits_append
      (P := groups [8, 4, 4, 4, 11]) (Q := [hexDigit]) h
    cases hr with
    | cons hc hr =>
      cases hr
      exact ⟨v, _, rfl, hex _ hc⟩

/-- A stretch of a slug comes from a stretch of the name. -/
theorem exists_of_slug {s p q : List Char}
    (h : (collapsed slugChar '-' false s).dropWhile dash = p ++ u ++ q) (hu : Fits named u) :
    ∃ x w y, s = x ++ w ++ y ∧ Spells [8, 4, 4, 4, 12] w ∧ room x ≤ p.length := by
  have hsplit : collapsed slugChar '-' false s =
      (collapsed slugChar '-' false s).takeWhile dash ++ p ++ (u ++ q) := by
    rw [List.append_assoc, ← List.append_assoc p, ← h, List.takeWhile_append_dropWhile]
  obtain ⟨x, z, hs, hx, hz⟩ := collapsed_split hsplit
  obtain ⟨w, y, rfl, hw, -⟩ := collapsed_split hz
  have hroom : room x ≤ p.length := by
    have hall : ∀ c ∈ (collapsed slugChar '-' false s).takeWhile dash, dash c = true :=
      fun c hc => List.mem_takeWhile_imp hc
    rw [room, hx, List.dropWhile_append_of_pos hall]
    exact (List.dropWhile_suffix _).length_le
  cases hstate : afterRun slugChar false x with
  | false =>
    rw [hstate] at hw
    refine ⟨x, w, y, by rw [hs, List.append_assoc], spells_of_fits named_pos ?_, hroom⟩
    rw [hw]
    exact hu
  | true =>
    rw [hstate] at hw
    -- a run the digits come after belongs to what stands before them
    obtain ⟨g, w', rfl, hg, hw'⟩ := collapsed_inside slugChar '-' w
    refine ⟨x ++ g, w', y, ?_, spells_of_fits named_pos ?_, ?_⟩
    · rw [hs]
      simp only [List.append_assoc]
    · rw [hw', hw]
      exact hu
    · rw [room, collapsed_append, hstate, collapsed_gap hg, List.append_nil]
      exact hroom

/-- A stretch of the name that spells a UUID is in the slug, behind what stands before it. -/
theorem exists_slug_of_spells {s : List Char} (hs : s = x ++ w ++ y)
    (hw : Spells [8, 4, 4, 4, 12] w) : ∃ p u q, Fits named u ∧ p.length = room x ∧
      (collapsed slugChar '-' false s).dropWhile dash = p ++ u ++ q := by
  have hu : Fits named (collapsed slugChar '-' (afterRun slugChar false x) w) :=
    fits_of_spells named_pos hw
  obtain ⟨⟨c, v, hcv, hc⟩, -⟩ := ends_of_fits hu
  refine ⟨_, _, collapsed slugChar '-' (afterRun slugChar (afterRun slugChar false x) w) y, hu, rfl, ?_⟩
  rw [hs, List.append_assoc, collapsed_append, collapsed_append, hcv, List.cons_append,
    dropWhile_append_of_not hc, List.append_assoc, List.cons_append]

/-- The name of a file without one has no UUID. -/
theorem occurrences_fallback (cut : List Char) :
    occurrences named 0 (if cut = [] then "file".toList else cut) = [] ↔
      occurrences named 0 cut = [] := by
  split_ifs with hnil
  · rw [hnil]
    exact ⟨fun _ => rfl, fun _ => by decide⟩
  · rfl

/-- The readable name has no UUID exactly where the plain name spells none. -/
theorem readableName_names_nothing (U : Unicode) (filename : List Char) :
    occurrences named 0 (readableName U filename) = [] ↔ ¬Respells U filename := by
  unfold readableName slugify Respells strip
  dsimp only
  generalize plain U (replaced named '-' 0 (splitext filename).1) = s
  rw [occurrences_fallback, occurrences_eq_nil named_ne_nil, not_iff_not.symm]
  push Not
  generalize hcut : ((((collapsed slugChar '-' false s).dropWhile dash).rdropWhile dash).take
    nameLimit).rdropWhile dash = cut
  constructor
  · rintro ⟨u, ⟨p, q, hpq⟩, hu⟩
    have hlimit : cut.length ≤ nameLimit := by
      rw [← hcut]
      exact (List.rdropWhile_prefix _ _).length_le.trans (List.length_take_le _ _)
    obtain ⟨r, hr⟩ : cut <+: (collapsed slugChar '-' false s).dropWhile dash := by
      rw [← hcut]
      exact (List.rdropWhile_prefix _ _).trans
        ((List.take_prefix _ _).trans (List.rdropWhile_prefix _ _))
    have hslug : (collapsed slugChar '-' false s).dropWhile dash = p ++ u ++ (q ++ r) := by
      rw [← hr, ← hpq, List.append_assoc]
    obtain ⟨x, w, y, hs, hw, hroom⟩ := exists_of_slug hslug hu
    refine ⟨x, w, y, hs, hw, ?_⟩
    rw [← hpq, List.length_append, List.length_append, hu.length] at hlimit
    omega
  · rintro ⟨x, w, y, hs, hw, hroom⟩
    obtain ⟨p, u, q, hu, hp, hslug⟩ := exists_slug_of_spells hs hw
    obtain ⟨v, c, rfl, hc⟩ := (ends_of_fits hu).2
    refine ⟨v ++ [c], ?_, hu⟩
    rw [hslug, ← List.append_assoc p] at hcut
    obtain ⟨q', hq'⟩ := exists_rdropWhile_append (t := p ++ v) hc q
    have hfull : (p ++ v ++ [c]).length ≤ nameLimit := by
      rw [List.append_assoc, List.length_append, hu.length, hp]
      exact hroom
    rw [hq', List.take_append, List.take_of_length_le hfull] at hcut
    obtain ⟨q'', hq''⟩ := exists_rdropWhile_append (t := p ++ v) hc
      (q'.take (nameLimit - (p ++ v ++ [c]).length))
    rw [hq''] at hcut
    exact ⟨p, q'', by rw [← hcut]; simp only [List.append_assoc]⟩

theorem datePath_names_nothing (moment : ℕ) : occurrences named 0 (datePath moment) = [] := by
  have hpad : ∀ n k, ∀ c ∈ padded n k, dash c = false := by
    intro n k c hc
    have hdigit := isDigit_padded n k c hc
    refine beq_eq_false_iff_ne.mpr fun heq => ?_
    rw [heq] at hdigit
    cases hdigit
  have hdash : dash ∈ named := List.mem_append_right _ List.mem_cons_self
  refine occurrences_of_lacks hdash fun c hc => ?_
  simp only [datePath, List.mem_append, List.mem_cons] at hc
  rcases hc with (hc | rfl | hc) | rfl | hc
  · exact hpad _ _ c hc
  · decide
  · exact hpad _ _ c hc
  · decide
  · exact hpad _ _ c hc

theorem named_slash : ∀ p ∈ named, p '/' = false := by decide

theorem named_dot : ∀ p ∈ named, p '.' = false := by decide

/-- An extension is empty or starts with a dot. -/
theorem extension_cases (U : Unicode) (filename : List Char) :
    U.lower (splitext filename).2 = [] ∨ ∃ t, U.lower (splitext filename).2 = '.' :: t := by
  unfold splitext
  dsimp only
  split
  · split_ifs
    · exact .inr ⟨_, U.lower_dot _⟩
    · exact .inl U.lower_nil
  · exact .inl U.lower_nil

/-- An extension is read apart from what stands before it. -/
theorem occurrences_extension (U : Unicode) (filename t : List Char) :
    occurrences named 0 (t ++ U.lower (splitext filename).2) =
      occurrences named 0 t ++ occurrences named 0 (U.lower (splitext filename).2) := by
  rcases extension_cases U filename with h | ⟨e, h⟩
  · rw [h, List.append_nil]
    exact (List.append_nil _).symm
  · rw [h, occurrences_separator named_dot named_ne_nil (Nat.zero_le _)]
    have hdot := occurrences_separator (u := []) (v := e) named_dot named_ne_nil (Nat.zero_le _)
    rw [List.nil_append] at hdot
    rw [hdot]
    rfl

/-- What a key names: what its folder, its readable name and its extension name, and its token. -/
theorem occurrences_buildKey (U : Unicode) (folder filename : List Char) (naming : Naming)
    (moment : ℕ) (token : Uuid) :
    occurrences named 0 (buildKey U folder filename naming moment token) =
      occurrences named 0 folder ++ [token.text] ++
        (match naming with
          | .original => occurrences named 0 (readableName U filename)
          | .uuid => []) ++ occurrences named 0 (U.lower (splitext filename).2) := by
  have hsep : ∀ u v, occurrences named 0 (u ++ '/' :: v) =
      occurrences named 0 u ++ occurrences named 0 v :=
    fun u v => occurrences_separator named_slash named_ne_nil (Nat.zero_le _)
  have htoken := occurrences_of_fits named_ne_nil token.fits
  cases naming with
  | original =>
    simp only [buildKey]
    rw [occurrences_extension, hsep, hsep, hsep, htoken, datePath_names_nothing, List.append_nil]
  | uuid =>
    simp only [buildKey]
    rw [occurrences_extension, hsep, hsep, htoken, datePath_names_nothing, List.append_nil,
      List.append_nil]

/-- A key names the drawn UUID and nothing else exactly where neither the folder nor the extension
names anything and the name it keeps, where it keeps one, spells no UUID. -/
theorem buildKey_names_its_file (U : Unicode) (folder filename : List Char) (naming : Naming)
    (moment : ℕ) (token : Uuid) :
    uuidsIn (buildKey U folder filename naming moment token) = [token.text] ↔
      uuidsIn folder = [] ∧ uuidsIn (U.lower (splitext filename).2) = [] ∧
        (naming = .original → ¬Respells U filename) := by
  rw [uuidsIn, uuidsIn, uuidsIn, occurrences_buildKey, List.map_eq_nil_iff, List.map_eq_nil_iff]
  constructor
  · intro h
    have hlen := congrArg List.length h
    simp only [List.length_map, List.length_append, List.length_singleton] at hlen
    refine ⟨List.eq_nil_of_length_eq_zero (by omega), List.eq_nil_of_length_eq_zero (by omega), ?_⟩
    rintro rfl
    exact (readableName_names_nothing U filename).mp (List.eq_nil_of_length_eq_zero (by
      dsimp only at hlen
      omega))
  · rintro ⟨hfolder, hextension, hname⟩
    rw [hfolder, hextension]
    cases naming with
    | original =>
      rw [(readableName_names_nothing U filename).mpr (hname rfl)]
      exact congrArg (fun t => [t]) token.lowered
    | uuid => exact congrArg (fun t => [t]) token.lowered

/-- A text of ASCII characters alone, which decompose to themselves. -/
def unaccented : Unicode where
  nfkd := fun c => [c]
  lower := List.map Char.toLower
  lower_nil := rfl
  lower_dot := fun _ => rfl

def productFile : UploadRule where
  folder := "files/product".toList
  extensions := [".pdf", ".epub", ".zip", ".mp3", ".mp4"].map String.toList
  naming := .original

def drawn : Uuid where
  text := "7f1c2b40-1d5e-4a8e-9b1f-2d3c4e5f6a7b".toList
  fits := by decide +kernel
  lowered := by decide +kernel

/-- A name with underscores where a UUID has dashes is one again in its key. -/
theorem buildKey_names_two : ¬∀ (U : Unicode) (rule : UploadRule) (filename : List Char)
    (moment : ℕ) (token : Uuid), uuidsIn rule.folder = [] → rule.accepts U filename →
    uuidsIn (buildKey U rule.folder filename rule.naming moment token) = [token.text] := by
  intro h
  have hkey := h unaccented productFile "3F2504E0_4F89_11D3_9A0C_0305E82C3301.pdf".toList 0 drawn
    (by decide +kernel) (by decide +kernel)
  revert hkey
  decide +kernel

end FastKit.Uploads
