import FastKit.Text.Urls

/-! # Where a page says to go next

The path a page names to go on to, read as it arrived. It is a path of the site, and what the API
and the panel own is no page of it.
-/

namespace FastKit.Site

open Text (before)
open Urls (resolved cut segments walk pathText dotSegment percentEncoded)

/-- What a deployment names its API and its panel. -/
structure Settings where
  apiPath : List Char
  adminPath : List Char

/-- The names they have where a deployment says nothing. -/
def Settings.shipped : Settings := ⟨"/api".toList, "/admin".toList⟩

def fallsUnder (path pre : List Char) : Bool := path == pre || (pre ++ ['/']).isPrefixOf path

def Settings.owners (settings : Settings) : List (List Char) :=
  [settings.apiPath, settings.adminPath]

def ownedElsewherePath (settings : Settings) (path : List Char) : Bool :=
  settings.owners.any fun owner => fallsUnder path owner

/-- What a browser drops before it reads an address, and the separator it reads as a slash. -/
def stripped (c : Char) : Bool := c.toNat ≤ 0x20 || c.toNat == 0x7f || c == '\\'

/-- What is left of a path that arrived. -/
def wanted (path : List Char) : List Char := path.filter fun c => !stripped c

def inside (settings : Settings) (path default : List Char) : List Char :=
  let wanted := wanted path
  if !(['/'].isPrefixOf wanted) || ['/', '/'].isPrefixOf wanted then default
  else if ownedElsewherePath settings (before '?' wanted) then default
  else wanted

/-- A browser that is told to go there stays on the site, and on none of what is owned elsewhere. -/
def Stays (settings : Settings) (t : List Char) : Prop :=
  ∃ path, resolved t = some path ∧ ownedElsewherePath settings path = false

/-- A page to go to where nothing else is said. -/
structure Page (settings : Settings) where
  path : List Char
  stays : Stays settings path

/-- The path a text at the root of a site leads to, when its query and its fragment are cut off and
its dot segments are walked. -/
def leadsTo (t : List Char) : List Char := pathText (Urls.walk [] (segments (cut t.tail)))

/-- Whether the text of a path that arrived is one to go to, as far as it is read. -/
def Accepted (settings : Settings) (t : List Char) : Prop :=
  ['/'].isPrefixOf t ∧ ¬ ['/', '/'].isPrefixOf t ∧ ownedElsewherePath settings (before '?' t) = false

variable {settings : Settings} {path : List Char}

theorem mem_wanted {c : Char} (h : c ∈ wanted path) : 0x20 < c.toNat ∧ c ≠ '\\' := by
  have hs := (List.mem_filter.mp h).2
  simp only [stripped, Bool.not_eq_true', Bool.or_eq_false_iff, decide_eq_false_iff_not,
    beq_eq_false_iff_ne] at hs
  exact ⟨by omega, hs.2⟩

theorem inside_of_accepted (h : Accepted settings (wanted path)) (default : List Char) :
    inside settings path default = wanted path := by
  obtain ⟨h₁, h₂, h₃⟩ := h
  simp [inside, h₁, h₂, h₃]

theorem inside_of_not_accepted (h : ¬ Accepted settings (wanted path)) (default : List Char) :
    inside settings path default = default := by
  unfold inside
  dsimp only
  split_ifs with h₁ h₂
  · rfl
  · rfl
  · rw [Accepted] at h
    simp_all

/-- A text that is accepted leads where its segments do. -/
theorem resolved_wanted (h : Accepted settings (wanted path)) :
    resolved (wanted path) = some (leadsTo (wanted path)) := by
  have hmem := @mem_wanted path
  generalize wanted path = t at h hmem
  obtain ⟨u, rfl⟩ : ∃ u, t = '/' :: u := by
    obtain ⟨u, hu⟩ := List.isPrefixOf_iff_prefix.mp h.1
    exact ⟨u, hu.symm⟩
  have hs : u.head? ≠ some '/' := by
    intro hs
    obtain ⟨v, rfl⟩ : ∃ v, u = '/' :: v := by
      cases u with
      | nil => simp at hs
      | cons c v => exact ⟨v, by simpa using hs⟩
    exact h.2.1 (by simp)
  refine Urls.resolved_eq (fun c hc => (hmem (List.mem_cons_of_mem _ hc)).1) hs fun hb => ?_
  exact (hmem (List.mem_cons_of_mem _ (List.mem_of_mem_head? hb))).2 rfl

/-- The API and the panel have names that stand in a path as they are. -/
def Settings.Plain (settings : Settings) : Prop :=
  ∀ owner ∈ settings.owners, ∀ c ∈ owner, Urls.PlainChar c

theorem fallsUnder_iff {t pre : List Char} :
    fallsUnder t pre = true ↔ t = pre ∨ pre ++ ['/'] <+: t := by
  simp [fallsUnder]

theorem ownedElsewherePath_iff {t : List Char} : ownedElsewherePath settings t = true ↔
    ∃ owner ∈ settings.owners, t = owner ∨ owner ++ ['/'] <+: t := by
  simp only [ownedElsewherePath, List.any_eq_true, fallsUnder_iff]

/-- What a path written in percents falls under is what it falls under as it is. -/
theorem ownedElsewherePath_flatMap (h : settings.Plain) (t : List Char) :
    ownedElsewherePath settings (t.flatMap percentEncoded) = ownedElsewherePath settings t := by
  rw [Bool.eq_iff_iff, ownedElsewherePath_iff, ownedElsewherePath_iff]
  refine exists_congr fun owner => and_congr_right fun ho => ?_
  have hplain := h owner ho
  have hslash : ∀ c ∈ owner ++ ['/'], Urls.PlainChar c := by
    intro c hc
    obtain hc | hc := List.mem_append.mp hc
    · exact hplain c hc
    · obtain rfl := List.mem_singleton.mp hc
      exact ⟨by decide, by decide⟩
  rw [Urls.plain_eq_flatMap hplain, Urls.plain_prefix_flatMap hslash]

/-- Without dot segments a text that is accepted leads to what is owned elsewhere only where the
path in front of its fragment is one of the owners. -/
theorem owner_of_leadsTo (h : settings.Plain) {t : List Char} (hb : '\\' ∉ t)
    (ht : Accepted settings t) (hdot : ∀ s ∈ segments (cut t.tail), dotSegment s = false)
    (hl : ownedElsewherePath settings (leadsTo t) = true) :
    ∃ owner ∈ settings.owners, owner ++ ['#'] <+: t := by
  obtain ⟨u, rfl⟩ : ∃ u, t = '/' :: u := by
    obtain ⟨u, hu⟩ := List.isPrefixOf_iff_prefix.mp ht.1
    exact ⟨u, hu.symm⟩
  have hcut : '\\' ∉ cut u := fun hm =>
    hb (List.mem_cons_of_mem _ (List.takeWhile_subset _ hm))
  have hleads : leadsTo ('/' :: u) = (cut ('/' :: u)).flatMap percentEncoded := by
    rw [leadsTo, Urls.walk_eq_append hdot, List.nil_append, List.tail_cons,
      Urls.pathText_segments hcut, Urls.cut_cons (by decide)]
    rfl
  rw [hleads, ownedElsewherePath_flatMap h, ownedElsewherePath_iff] at hl
  obtain ⟨owner, ho, hl⟩ := hl
  have hfree := ht.2.2
  rw [← Bool.not_eq_true, ownedElsewherePath_iff] at hfree
  obtain hbefore | ⟨hhash, hpre⟩ := Urls.before_cases ('/' :: u)
  · exact absurd ⟨owner, ho, hbefore ▸ hl⟩ hfree
  · obtain rfl | hunder := hl
    · exact ⟨_, ho, hhash⟩
    · exact absurd ⟨owner, ho, .inr (hunder.trans hpre)⟩ hfree

/-- A browser told to go where a page says stays on the site, and off what the API and the panel
own, exactly where the text is refused or does not lead to what they own; and the texts that do are
those with a fragment straight behind an owner's path and those with dot segments. -/
theorem inside_stays (settings : Settings) (default : Page settings) (path : List Char) :
    (Stays settings (inside settings path default.path) ↔
      ¬ (Accepted settings (wanted path) ∧
        ownedElsewherePath settings (leadsTo (wanted path)) = true)) ∧
    (settings.Plain → ¬ Stays settings (inside settings path default.path) →
      (∃ owner ∈ settings.owners, owner ++ ['#'] <+: wanted path) ∨
        ∃ s ∈ segments (cut (wanted path).tail), dotSegment s = true) := by
  have hiff : Stays settings (inside settings path default.path) ↔
      ¬ (Accepted settings (wanted path) ∧
        ownedElsewherePath settings (leadsTo (wanted path)) = true) := by
    by_cases h : Accepted settings (wanted path)
    · rw [inside_of_accepted h, Stays, resolved_wanted h]
      simp [h]
    · rw [inside_of_not_accepted h]
      simp [h, default.stays]
  refine ⟨hiff, fun hplain hstray => ?_⟩
  rw [hiff, not_not] at hstray
  by_cases hdot : ∃ s ∈ segments (cut (wanted path).tail), dotSegment s = true
  · exact .inr hdot
  · refine .inl (owner_of_leadsTo hplain (fun hm => (mem_wanted hm).2 rfl) hstray.1 ?_ hstray.2)
    intro s hs
    by_contra h
    exact hdot ⟨s, hs, by simpa using h⟩

/-- The pages to go to where nothing else is said. -/
def home : Page .shipped := ⟨"/".toList, "/".toList, by decide, by decide⟩

def account : Page .shipped := ⟨"/account".toList, "/account".toList, by decide, by decide⟩

/-- The panel is where a fragment behind its path leads, and where a step up leads, whichever page
is the one to go to else. -/
theorem inside_leads_to_the_panel :
    ¬ Stays .shipped (inside .shipped "/admin#users".toList home.path) ∧
      ¬ Stays .shipped (inside .shipped "/about/../admin/users".toList account.path) := by
  have hpanel {t path : List Char} (hr : resolved t = some path)
      (ho : ownedElsewherePath .shipped path = true) : ¬ Stays .shipped t := by
    rintro ⟨p, hp, hfree⟩
    obtain rfl := Option.some.inj (hr.symm.trans hp)
    exact absurd ho (by simp [hfree])
  exact ⟨hpanel (by decide : _ = some "/admin".toList) (by decide),
    hpanel (by decide : _ = some "/admin/users".toList) (by decide)⟩

end FastKit.Site
