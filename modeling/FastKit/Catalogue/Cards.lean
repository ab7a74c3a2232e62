import FastKit.Services.Catalogue

/-! # A card opens what it shows

A listing draws rows, and the key of a row opens one. For what is reached by a tag these are the
same row, as a listing picks the first row of a tag in the order the tag opens it by. A listing of
products hides a shared one only behind what the search found.
-/

namespace FastKit.Catalogue

open Picks (sortedBy firsts)

variable {κ : Type} [LinearOrder κ]

namespace Tags

variable (T : Tags) (tenantId : Option ℕ) (language : Option String)

theorem languageOrder_inj : ∀ a ∈ T.reachable tenantId, ∀ b ∈ T.reachable tenantId,
    T.languageOrder language a = T.languageOrder language b → a = b := by
  intro a ha b hb h
  simp only [languageOrder, EmbeddingLike.apply_eq_iff_eq, Prod.mk.injEq] at h
  exact List.inj_on_of_nodup_map T.ids (List.mem_of_mem_filter ha) (List.mem_of_mem_filter hb) h.2.2

/-- What is listed is what its tag opens. -/
theorem findByTag_of_mem {listingFields : Tagged → κ} {row : Tagged}
    (h : row ∈ T.listReachable listingFields tenantId language) :
    T.findByTag row.tag tenantId language = some row := by
  rw [listReachable, onePerKey, Picks.mem_sortedBy, Picks.mem_firsts, byLanguage,
    Picks.find?_sortedBy (T.languageOrder_inj tenantId language)] at h
  exact h

theorem nodup_tags (listingFields : Tagged → κ) :
    ((T.listReachable listingFields tenantId language).map Tagged.tag).Nodup :=
  ((Picks.sortedBy_perm _ _).map _).nodup_iff.mpr (Picks.nodup_firsts _ _)

end Tags

namespace Products

variable (P : Products) (tenantId : Option ℕ)

variable {P tenantId}

theorem owner_of_mem {row : Product} (h : row ∈ P.reachable tenantId) (howned : row.tenantId ≠ none) :
    row.tenantId = tenantId := by
  have hr := (List.mem_filter.mp h).2
  simp only [reachesTenant, Bool.and_eq_true, Bool.or_eq_true, decide_eq_true_eq] at hr
  exact hr.2.resolve_right howned

theorem eq_of_slug {a b : Product} (ha : a ∈ P.reachable tenantId) (hb : b ∈ P.reachable tenantId)
    (hs : a.slug = b.slug) (ht : a.tenantId = b.tenantId) : a = b :=
  List.inj_on_of_nodup_map P.slugs (List.mem_of_mem_filter ha) (List.mem_of_mem_filter hb)
    (by rw [hs, ht])

/-- Two rows of one slug that are both a tenant's own, or both shared, are one. -/
theorem eq_of_isNone {a b : Product} (ha : a ∈ P.reachable tenantId) (hb : b ∈ P.reachable tenantId)
    (hs : a.slug = b.slug) (hn : a.tenantId = none ↔ b.tenantId = none) : a = b := by
  by_cases h : a.tenantId = none
  · exact eq_of_slug ha hb hs (h.trans (hn.mp h).symm)
  · exact eq_of_slug ha hb hs ((owner_of_mem ha h).trans (owner_of_mem hb (mt hn.mpr h)).symm)

/-- A slug opens the tenant's own row, and a shared one where the tenant has none. -/
theorem findReachable_eq_some {row : Product} (hrow : row ∈ P.reachable tenantId)
    (hfirst : row.tenantId = none → ∀ other ∈ P.reachable tenantId, other.slug = row.slug →
      other.tenantId = none) :
    P.findReachable tenantId row.slug = some row := by
  refine Picks.head?_sortedBy (List.mem_filter.mpr ⟨hrow, by simp⟩) fun other hother hle => ?_
  obtain ⟨hreach, hslug⟩ := List.mem_filter.mp hother
  rw [decide_eq_true_eq] at hslug
  refine eq_of_isNone hreach hrow hslug ⟨fun hn => ?_, fun hn => hfirst hn other hreach hslug⟩
  -- A shared row does not come before one of the tenant.
  rw [Prod.Lex.toLex_le_toLex] at hle
  by_contra hown
  simp only [hn, Option.isNone_none, Bool.eq_false_iff.mpr (Option.isNone_iff_eq_none.not.mpr hown),
    Bool.true_eq_false, false_and, or_false] at hle
  exact absurd hle (by decide)

/-- No shared product that is found stands for one of the tenant that is not. -/
def Covers (P : Products) (tenantId : Option ℕ) (search : Search) : Prop :=
  ∀ row ∈ P.reachable tenantId, ∀ other ∈ P.reachable tenantId, row.tenantId = none →
    other.tenantId ≠ none → other.slug = row.slug → search.finds row = true →
    search.finds other = true

/-- Every product of a listing is the one its slug opens, and no slug is listed twice. -/
def Opens (P : Products) (tenantId : Option ℕ) (search : Search) : Prop :=
  (∀ row ∈ P.listReachable tenantId search, P.findReachable tenantId row.slug = some row) ∧
    ((P.listReachable tenantId search).map Product.slug).Nodup

variable {search : Search} {row : Product}

theorem mem_listReachable : row ∈ P.listReachable tenantId search ↔
    (row ∈ P.reachable tenantId ∧ search.finds row = true) ∧
      (row.tenantId = none → ∀ other ∈ P.reachable tenantId, search.finds other = true →
        other.tenantId ≠ none → other.slug ≠ row.slug) := by
  simp only [listReachable, List.mem_filter, Picks.mem_sortedBy, List.mem_map, Bool.or_eq_true,
    decide_eq_true_eq, not_exists, not_and]
  refine and_congr_right fun _ => ⟨?_, fun h => ?_⟩
  · rintro (hown | hfree) hnone other ho hf hown' hslug
    · exact hown hnone
    · exact hfree other ⟨⟨ho, hf⟩, hown'⟩ hslug
  · by_cases hnone : row.tenantId = none
    · exact .inr fun other ho => h hnone other ho.1.1 ho.1.2 ho.2
    · exact .inl hnone

theorem nodup_reachable (P : Products) (tenantId : Option ℕ) : (P.reachable tenantId).Nodup :=
  (List.Nodup.of_map _ P.ids).filter _

/-- A listing opens what it shows exactly where what the search found covers what it did not. -/
theorem opens_iff : P.Opens tenantId search ↔ P.Covers tenantId search := by
  constructor
  · rintro ⟨hopen, -⟩ row hrow other hother hnone hown hslug hfinds
    by_contra hmiss
    -- The shared row is listed, as the tenant's own was not found, and that one is opened.
    have hlisted : row ∈ P.listReachable tenantId search := by
      refine mem_listReachable.mpr ⟨⟨hrow, hfinds⟩, fun _ third hthird hf hown' hs => ?_⟩
      obtain rfl := eq_of_slug hthird hother (hs.trans hslug.symm)
        ((owner_of_mem hthird hown').trans (owner_of_mem hother hown).symm)
      exact hmiss hf
    have hfirst := findReachable_eq_some hother fun hn => absurd hn hown
    rw [hslug, hopen row hlisted] at hfirst
    obtain rfl := Option.some.inj hfirst
    exact hown hnone
  · intro hcovers
    -- A shared row that is listed has no row of the tenant in front of it.
    have halone {row : Product} (h : row ∈ P.listReachable tenantId search)
        (hnone : row.tenantId = none) {other : Product} (hother : other ∈ P.reachable tenantId)
        (hslug : other.slug = row.slug) : other.tenantId = none := by
      obtain ⟨⟨hrow, hfinds⟩, hfree⟩ := mem_listReachable.mp h
      by_contra hown
      exact hfree hnone other hother (hcovers row hrow other hother hnone hown hslug hfinds) hown
        hslug
    refine ⟨fun row h => ?_, ?_⟩
    · exact findReachable_eq_some (mem_listReachable.mp h).1.1 fun hnone other ho hs =>
        halone h hnone ho hs
    · refine List.Nodup.map_on ?_ ?_
      · intro a ha b hb hs
        have hra := (mem_listReachable.mp ha).1.1
        have hrb := (mem_listReachable.mp hb).1.1
        exact eq_of_isNone hra hrb hs ⟨fun hn => halone ha hn hrb hs.symm,
          fun hn => halone hb hn hra hs⟩
      · exact (((Picks.sortedBy_perm _ _).nodup_iff).mpr
          ((nodup_reachable P tenantId).filter _)).filter _

end Products

/-- A card opens what it shows: each row a listing of tagged resources draws is the one its tag
opens in the same language, and no tag is drawn twice; and the same of products and their slugs
exactly where no shared product that a search finds stands before one of the tenant that it does
not find. -/
theorem cards_open (T : Tags) (P : Products) (listingFields : Tagged → κ) (tenantId : Option ℕ)
    (language : Option String) (search : Search) :
    ((∀ row ∈ T.listReachable listingFields tenantId language,
        T.findByTag row.tag tenantId language = some row) ∧
      ((T.listReachable listingFields tenantId language).map Tagged.tag).Nodup) ∧
    (P.Opens tenantId search ↔ P.Covers tenantId search) :=
  ⟨⟨fun _ h => T.findByTag_of_mem tenantId language h, T.nodup_tags tenantId language listingFields⟩,
    Products.opens_iff⟩

/-- A shared guide, and the one a tenant has of its own under another name. -/
def guides : Products where
  rows := [⟨1, none, "field guide", "handbook", true, 0⟩, ⟨2, some 7, "manual", "handbook", true, 0⟩]
  ids := by decide
  slugs := by decide

def guideSearch : Search where
  term := "guide"
  contains slug term := decide (term.toList <:+: slug.toList)
  text name term := (name.toList.splitOn ' ').any fun word => term.toList.isPrefixOf word
  rank _ _ := 0

/-- The card shows the shared guide and opens the tenant's own. -/
theorem card_opens_another : ¬ guides.Opens (some 7) guideSearch := by
  intro h
  have hfound := h.1 ⟨1, none, "field guide", "handbook", true, 0⟩ (by decide +kernel)
  exact absurd hfound (by decide +kernel)

end FastKit.Catalogue
