import FastKit.Crud.Confinement

/-! # What goes with a row

The tables that go before their parent, table after table, take what belongs to whom the parent
belongs to and nothing else.
-/

namespace FastKit.Crud
open Relational Transaction

variable {δ : Type} {m parent model : Model} {field : Column} {s t u : Store δ} {r p : Row δ} {c id : ℕ}
  {lenient : Bool} {parents ids : Store δ → ℕ → Bool} {d : Dependent} {ds : List Dependent}

mutual

/-- Whether a table points at its parent by the column it goes by, and so do those that go before it. -/
def Dependent.suits (parent : Model) : Dependent → Bool
  | ⟨model, field, ds⟩ =>
    model.keys.any (fun k => k.column = field && k.target = parent) && suitAll model ds

def suitAll (parent : Model) : List Dependent → Bool
  | [] => true
  | d :: ds => d.suits parent && suitAll parent ds

end

theorem dependents_suit (m : Model) : suitAll m m.dependents = true := by cases m <;> decide +kernel

/-- The ids are of rows that belong to `c`, whatever is written within what belongs to it. -/
def Within (c : ℕ) (s : Store δ) (model : Model) (ids : Store δ → ℕ → Bool) : Prop :=
  ∀ t, Stays c s t → ∀ p ∈ t model, ids t p.id = true → owner brands t model p = some c

theorem mem_among (hr : r ∈ s model) : among model field parents s r.id = true ↔
    ∃ id, r.refs field = some id ∧ parents s id = true := by
  have hget : (s model).get r.id = some r := Table.get_of_mem hr
  rw [among, hget, Option.any_some, Option.any_eq_true]

/-- What points at rows that belong to `c` belongs to it. -/
theorem Within.among (h : Within c s parent parents)
    (hfield : model.keys.any (fun k => k.column = field && k.target = parent) = true) :
    Within c s model (among model field parents) := by
  intro t hst r hr hamong
  obtain ⟨k, hk, hkey⟩ := List.any_eq_true.mp hfield
  obtain ⟨hcolumn, htarget⟩ := (Bool.and_eq_true _ _).mp hkey
  obtain rfl : k.column = field := of_decide_eq_true hcolumn
  obtain rfl : k.target = parent := of_decide_eq_true htarget
  obtain ⟨id, href, hparents⟩ := (mem_among hr).mp hamong
  obtain ⟨p, hp⟩ := hst.fenced.leads model r hr k hk (by simp [href])
  obtain ⟨hmem, hid⟩ := follow_eq_some.mp hp
  obtain rfl : p.id = id := Option.some.inj (hid.symm.trans href)
  have howner := h t hst p hmem hparents
  rcases hst.fenced.fence model r hr k hk p hp with hnobody | hsame
  · rw [howner] at hnobody
    cases hnobody
  · exact hsame.symm.trans howner

/-- A statement deletes only what belongs to `c`. -/
theorem deleteIds_stays (h : Within c s model ids) (hst : Stays c s t)
    (hdelete : deleteIds lenient model ids t = some u) : Stays c s u := by
  refine hst.trans (stays_of_edits hst.fenced (edits_delete hst.fenced (fun i r hr hroot => ?_) hdelete))
  obtain ⟨hi, hid⟩ := (Bool.and_eq_true _ _).mp hroot
  obtain rfl : i = model := of_decide_eq_true hi
  exact h t hst r hr hid

mutual

theorem Dependent.delete_stays {parent : Model} {parents : Store δ → ℕ → Bool} {t u : Store δ} :
    ∀ d : Dependent, d.suits parent = true → Within c s parent parents → Stays c s t →
      d.delete lenient parents t = some u → Stays c s u
  | ⟨model, field, ds⟩, hsuits, h, hst, hdelete => by
    rw [Dependent.suits, Bool.and_eq_true] at hsuits
    rw [Dependent.delete] at hdelete
    obtain ⟨v, hv, hu⟩ := Option.bind_eq_some_iff.mp hdelete
    have hamong := h.among hsuits.1
    exact deleteIds_stays hamong (deleteDependents_stays ds hsuits.2 hamong hst hv) hu

theorem deleteDependents_stays {parent : Model} {parents : Store δ → ℕ → Bool} {t u : Store δ} :
    ∀ ds : List Dependent, suitAll parent ds = true → Within c s parent parents → Stays c s t →
      deleteDependents lenient parents ds t = some u → Stays c s u
  | [], _, _, hst, hdelete => by
    rw [deleteDependents] at hdelete
    exact Option.some.inj hdelete ▸ hst
  | d :: ds, hsuits, h, hst, hdelete => by
    rw [suitAll, Bool.and_eq_true] at hsuits
    rw [deleteDependents] at hdelete
    obtain ⟨v, hv, hu⟩ := Option.bind_eq_some_iff.mp hdelete
    exact deleteDependents_stays ds hsuits.2 h (Dependent.delete_stays d hsuits.1 h hst hv) hu

end

end FastKit.Crud
