import FastKit.Delivery.Keeps
import Mathlib.Data.Set.Image

/-! # What benefits follow of a subscription

Whose a subscription is and whether it gives benefits is its face. A session that keeps copies
of subscriptions moves faces only where it wrote one, and a flush makes its copies the rows.
-/

namespace FastKit
open Transaction Transaction.Program

/-- Whose a subscription is and of which purchase, and what benefits follow. -/
structure Face where
  id : ℕ
  userId : ℕ
  integrationId : Option ℕ
  externalId : Option ℕ
  status : SubscriptionStatus
  benefitStatus : BenefitStatus

def Subscription.face (s : Subscription) : Face :=
  ⟨s.id, s.userId, s.integrationId, s.externalId, s.status, s.benefitStatus⟩

/-- What no attribute that is written in memory moves. -/
def Face.owner (f : Face) : ℕ × ℕ × Option ℕ := (f.id, f.userId, f.integrationId)

def Face.eligible (f : Face) : Bool := f.status.eligible && f.benefitStatus == .active

@[simp] theorem Subscription.face_eligible (s : Subscription) :
    s.face.eligible = s.isEligibleForBenefits := rfl

def faces (t : Table Subscription) : Set Face := {f | ∃ r ∈ t, r.face = f}

theorem mem_faces {t : Table Subscription} {r : Subscription} (h : r ∈ t) : r.face ∈ faces t :=
  ⟨r, h, rfl⟩

/-- The subscriptions are told apart by their ids, and so are their faces. -/
theorem eq_of_face {t : Table Subscription} {f f' : Face} (h : f ∈ faces t) (h' : f' ∈ faces t)
    (hid : f.id = f'.id) : f = f' := by
  obtain ⟨r, hr, rfl⟩ := h
  obtain ⟨r', hr', rfl⟩ := h'
  rw [Table.eq_of_id hr hr' hid]

/-- A row that is inserted adds its face. -/
theorem faces_insert {t u : Table Subscription} {make : ℕ → Subscription} {row : Subscription}
    (h : t.insert make = some (row, u)) : faces u = insert row.face (faces t) := by
  ext f
  constructor
  · rintro ⟨r, hr, rfl⟩
    rcases (Table.mem_insert h).mp hr with hr | rfl
    · exact .inr (mem_faces hr)
    · exact .inl rfl
  · rintro (rfl | ⟨r, hr, rfl⟩)
    · exact mem_faces ((Table.mem_insert h).mpr (.inr rfl))
    · exact mem_faces ((Table.mem_insert h).mpr (.inl hr))

/-- Rows rewritten with what that makes of their faces. -/
theorem faces_map {t u : Table Subscription} {f : Subscription → Subscription} {move : Face → Face}
    (hrows : ∀ r, r ∈ u ↔ ∃ a ∈ t, f a = r) (hf : ∀ a ∈ t, (f a).face = move a.face) :
    faces u = move '' faces t := by
  ext face
  constructor
  · rintro ⟨r, hr, rfl⟩
    obtain ⟨a, ha, rfl⟩ := (hrows r).mp hr
    exact ⟨a.face, mem_faces ha, (hf a ha).symm⟩
  · rintro ⟨_, ⟨a, ha, rfl⟩, rfl⟩
    exact ⟨f a, (hrows _).mpr ⟨a, ha, rfl⟩, hf a ha⟩

theorem faces_modify {t : Table Subscription} {p : Subscription → Bool}
    {f : Subscription → Subscription} (still : Still f) (hf : ∀ a, (f a).face = a.face) :
    faces (t.modify p f still) = faces t := by
  rw [faces_map (fun _ => Table.mem_modify still) fun a _ => (?_ : _ = id a.face), Set.image_id]
  split_ifs
  · exact hf a
  · rfl

/-- What moves the face of one row. -/
def moveOne (id : ℕ) (move : Face → Face) (f : Face) : Face := if f.id = id then move f else f

theorem moveOne_self {id : ℕ} {move : Face → Face} {f : Face} (h : f.id = id) :
    moveOne id move f = move f := if_pos h

theorem moveOne_other {id : ℕ} {move : Face → Face} {f : Face} (h : f.id ≠ id) :
    moveOne id move f = f := if_neg h

theorem face_one {f : Subscription → Subscription} {move : Face → Face} {id : ℕ}
    (hf : ∀ r, (f r).face = move r.face) (r : Subscription) :
    (if (r.id == id) = true then f r else r).face = moveOne id move r.face := by
  by_cases hr : r.id = id
  · rw [if_pos (beq_iff_eq.mpr hr), moveOne_self (show r.face.id = id from hr), hf]
  · rw [if_neg fun h => hr (beq_iff_eq.mp h), moveOne_other (show r.face.id ≠ id from hr)]

/-- One row after the copies of it were written one after the other. -/
def written : List Loaded → Subscription → Subscription
  | [], row => row
  | l :: rest, row =>
    written rest (if l.now ≠ l.loaded ∧ row.id = l.loaded.id then l.write row else row)

theorem writeLoaded_rows {held : List Loaded} {t u : Table Subscription}
    (h : writeLoaded held t = some u) (r : Subscription) : r ∈ u ↔ ∃ a ∈ t, written held a = r := by
  induction held generalizing t with
  | nil =>
    obtain rfl := Option.some.inj h
    simp [written]
  | cons l rest ih =>
    rw [writeLoaded] at h
    by_cases hl : l.now = l.loaded
    · rw [if_pos hl] at h
      simp only [ih h, written, hl, ne_eq, not_true_eq_false, false_and, if_false]
    · rw [if_neg hl] at h
      obtain ⟨w, halter, hrest⟩ := Option.bind_eq_some_iff.mp h
      rw [ih hrest]
      constructor
      · rintro ⟨_, hw, rfl⟩
        obtain ⟨a, ha, rfl⟩ := (Table.mem_alter halter).mp hw
        exact ⟨a, ha, by simp [written, hl]⟩
      · rintro ⟨a, ha, rfl⟩
        exact ⟨_, (Table.mem_alter halter).mpr ⟨a, ha, rfl⟩, by simp [written, hl]⟩

theorem changed_eq {α : Type} [DecidableEq α] {loaded now row : α} (h : row = loaded ∨ row = now) :
    changed loaded now row = now := by
  unfold changed
  split_ifs with heq
  · rcases h with rfl | rfl
    · exact heq.symm
    · rfl
  · rfl

/-- A copy is written over the row it was loaded from, or over itself. -/
theorem face_write {l : Loaded} {row : Subscription} (howner : l.now.face.owner = l.loaded.face.owner)
    (h : row.face = l.loaded.face ∨ row.face = l.now.face) : (l.write row).face = l.now.face := by
  have hrow : row.face.owner = l.now.face.owner := by
    rcases h with h | h
    · rw [h, howner]
    · rw [h]
  simp only [Face.owner, Subscription.face, Prod.mk.injEq] at hrow
  simp only [Subscription.face, Face.mk.injEq] at h ⊢
  obtain ⟨hid, huser, hintegration⟩ := hrow
  exact ⟨hid, huser, hintegration, changed_eq (h.imp (·.2.2.2.1) (·.2.2.2.1)),
    changed_eq (h.imp (·.2.2.2.2.1) (·.2.2.2.2.1)), changed_eq (h.imp (·.2.2.2.2.2) (·.2.2.2.2.2))⟩

/-- A row with copies that all make the same of it. -/
theorem face_written {held : List Loaded} {row : Subscription} {f f' : Face}
    (howner : f'.owner = f.owner) (hrow : row.face = f ∨ row.face = f')
    (h : ∀ l ∈ held, l.loaded.id = row.id → l.loaded.face = f ∧ l.now.face = f')
    (hany : row.face = f' ∨ ∃ l ∈ held, l.loaded.id = row.id) : (written held row).face = f' := by
  induction held generalizing row with
  | nil => simpa [written] using hany
  | cons l rest ih =>
    have hrest : ∀ k ∈ rest, k.loaded.id = row.id → k.loaded.face = f ∧ k.now.face = f' :=
      fun k hk => h k (List.mem_cons_of_mem _ hk)
    rw [written]
    by_cases hl : l.loaded.id = row.id
    · obtain ⟨hf, hf'⟩ := h l List.mem_cons_self hl
      have hnow : l.now.face.owner = l.loaded.face.owner := by rw [hf', howner, hf]
      split_ifs with hw
      · have hface : (l.write row).face = f' := by
          rw [face_write hnow (hrow.imp (·.trans hf.symm) (·.trans hf'.symm)), hf']
        exact ih (.inr hface) hrest (.inl hface)
      · have hsame : l.now = l.loaded := by
          by_contra hne
          exact hw ⟨hne, hl.symm⟩
        have hff : f = f' := by rw [← hf', hsame, hf]
        have hface : row.face = f' := hrow.elim (·.trans hff) id
        exact ih (.inr hface) hrest (.inl hface)
    · rw [if_neg fun hw => hl hw.2.symm]
      refine ih hrow hrest (hany.imp_right ?_)
      rintro ⟨k, hk, hkid⟩
      rcases List.mem_cons.mp hk with rfl | hk
      · exact absurd hkid hl
      · exact ⟨k, hk, hkid⟩

/-- What a session has in memory moves the faces of its copies as `move` does. -/
def Moves (move : Face → Face) (m : Memory) (s : Store) : Prop :=
  ∀ l ∈ m.subscriptions, l.loaded.face ∈ faces s.subscriptions ∧ l.now.face = move l.loaded.face

/-- What a session has in memory leaves every face as it is stored. -/
abbrev Level : Memory → Store → Prop := Moves id

theorem level_empty (s : Store) : Level Memory.empty s := fun _ h => absurd h List.not_mem_nil

variable {move : Face → Face} {g m : Memory} {b v w : Store} {id : ℕ} {row : Subscription}

theorem Moves.grow (h : Moves move m v)
    (hw : FastKit.faces v.subscriptions ⊆ FastKit.faces w.subscriptions) : Moves move m w :=
  fun l hl => ⟨hw (h l hl).1, (h l hl).2⟩

theorem Moves.faces (h : Moves move m v) (hw : FastKit.faces w.subscriptions =
    FastKit.faces v.subscriptions) : Moves move m w := h.grow hw.symm.subset

theorem Level.load (h : Level m v) (hrow : row ∈ v.subscriptions) : Level (m.load row) v := by
  intro l hl
  rcases List.mem_cons.mp hl with rfl | hl
  · exact ⟨mem_faces hrow, rfl⟩
  · exact h l (List.mem_of_mem_filter hl)

/-- What is written in memory of one row. -/
theorem Level.assign (h : Level m v) {f : Subscription → Subscription}
    (hf : ∀ r, (f r).face = move r.face) : Moves (moveOne id move) (m.assign id f) v := by
  intro l hl
  obtain ⟨k, hk, rfl⟩ := List.mem_map.mp hl
  obtain ⟨hmem, hsame⟩ := h k hk
  split_ifs with hid
  · refine ⟨hmem, ?_⟩
    change (f k.now).face = moveOne id move k.loaded.face
    rw [hf, hsame, moveOne_self (beq_iff_eq.mp hid)]
    rfl
  · exact ⟨hmem, hsame.trans (moveOne_other fun hface => hid (beq_iff_eq.mpr hface)).symm⟩

theorem meets_writeBenefits {C : Contract Memory Memory Store} {p : SubscriptionBenefit → Bool}
    {f : SubscriptionBenefit → SubscriptionBenefit} {h : Still f}
    {post : Memory → Except Fault (Unit × Memory) → Store → Store → Prop} :
    (writeBenefits p f h).Meets C post g m b v ↔
      post g (.ok ((), m)) b { v with benefits := v.benefits.modify p f h } := Iff.rfl

theorem meets_writeEntitlements {C : Contract Memory Memory Store} {p : UserEntitlement → Bool}
    {f : UserEntitlement → UserEntitlement} {h : Still f}
    {post : Memory → Except Fault (Unit × Memory) → Store → Store → Prop} :
    (writeEntitlements p f h).Meets C post g m b v ↔
      post g (.ok ((), m)) b { v with entitlements := v.entitlements.modify p f h } := Iff.rfl

/-- A flush moves the faces of the rows as the copies of them say, and keeps every copy level. -/
theorem flush_faces {C : Contract Memory Memory Store}
    {post : Memory → Except Fault (Unit × Memory) → Store → Store → Prop} (hm : Moves move m v)
    (hmove : ∀ f : Face, (move f).owner = f.owner)
    (held : ∀ f ∈ faces v.subscriptions, move f = f ∨ ∃ l ∈ m.subscriptions, l.loaded.id = f.id)
    (hok : ∀ u, faces u = move '' faces v.subscriptions →
      Level m.flushed { v with subscriptions := u } →
      post g (.ok ((), m.flushed)) b { v with subscriptions := u })
    (herr : post g (.error .integrity) b v) : flush.Meets C post g m b v := by
  unfold flush
  simp only [meets_bind, meets_remembered, meets_query, ending_ok]
  split
  · rename_i u hu
    simp only [meets_bind, meets_execute, meets_remember, ending_ok]
    have hfaces : faces u = move '' faces v.subscriptions := by
      refine faces_map (writeLoaded_rows hu) fun a ha => ?_
      have hcopies : ∀ l ∈ m.subscriptions.insertionSort (·.loaded.id ≤ ·.loaded.id),
          l.loaded.id = a.id → l.loaded.face = a.face ∧ l.now.face = move a.face := by
        intro l hl hid
        obtain ⟨hmem, hnow⟩ := hm l ((List.mem_insertionSort _).mp hl)
        have hsame : l.loaded.face = a.face := eq_of_face hmem (mem_faces ha) hid
        exact ⟨hsame, hsame ▸ hnow⟩
      refine face_written (hmove _) (.inl rfl) hcopies ((held _ (mem_faces ha)).imp
        Eq.symm ?_)
      rintro ⟨l, hl, hid⟩
      exact ⟨l, (List.mem_insertionSort _).mpr hl, hid⟩
    refine hok u hfaces fun l hl => ?_
    obtain ⟨k, hk, rfl⟩ := List.mem_map.mp hl
    obtain ⟨hmem, hnow⟩ := hm k hk
    exact ⟨hfaces ▸ ⟨_, hmem, hnow.symm⟩, rfl⟩
  · exact herr

/-- A flush of what is level moves no face. -/
theorem flush_level {C : Contract Memory Memory Store}
    {post : Memory → Except Fault (Unit × Memory) → Store → Store → Prop} (hm : Level m v)
    (hok : ∀ u, faces u = faces v.subscriptions → Level m.flushed { v with subscriptions := u } →
      post g (.ok ((), m.flushed)) b { v with subscriptions := u })
    (herr : post g (.error .integrity) b v) : flush.Meets C post g m b v :=
  flush_faces hm (fun _ => rfl) (fun _ _ => .inl rfl)
    (fun u hu => hok u (hu.trans (Set.image_id _))) herr

/-- The row `read` finds, or the one that is inserted into what a flush of what is level leaves. -/
theorem insertOrRead_level {C : Contract Memory Memory Store} {α κ : Type} [Keyed α κ]
    [DecidableEq κ] {table : Store → Table α} {put : Table α → Store → Store} {read : α → Bool}
    {make : ℕ → α} {post : Memory → Except Fault (Option (α × Bool) × Memory) → Store → Store → Prop}
    (hm : Level m v)
    (hfound : ∀ row, (table v).find read = some row → post g (.ok (some (row, false), m)) b v)
    (hnew : (table v).find read = none → ∀ u, faces u = faces v.subscriptions →
      Level m.flushed { v with subscriptions := u } → ∀ row t,
      (table { v with subscriptions := u }).insert make = some (row, t) →
      post g (.ok (some (row, true), m.flushed)) b (put t { v with subscriptions := u }))
    (hlost : (table v).find read = none → ∀ u, faces u = faces v.subscriptions →
      Level m.flushed { v with subscriptions := u } → post g (.ok
        (((table { v with subscriptions := u }).find read).map (·, false), m.flushed)) b
        { v with subscriptions := u })
    (herr : post g (.error .integrity) b v) :
    (insertOrRead table put read make).Meets C post g m b v := by
  unfold insertOrRead
  simp only [meets_bind, meets_query, ending_ok]
  cases hf : (table v).find read with
  | some row => exact hfound row hf
  | none =>
    simp only [meets_bind]
    refine flush_level hm (fun u hu hlevel => ?_) herr
    simp only [ending_ok, meets_bind, meets_query]
    split
    · rename_i row t ht
      exact hnew hf u hu hlevel row t ht
    · exact hlost hf u hu hlevel

/-- The copy a session has is the row as it is stored, where nothing it wrote says otherwise. -/
theorem subscriptionOf_level {C : Contract Memory Memory Store}
    {post : Memory → Except Fault (Subscription × Memory) → Store → Store → Prop} (hm : Level m v)
    (hok : ∀ row m', Level m' v → m'.find id = some row → row.face ∈ faces v.subscriptions →
      row.id = id → post g (.ok (row, m')) b v)
    (herr : ∀ e, post g (.error e) b v) : (subscriptionOf id).Meets C post g m b v := by
  unfold subscriptionOf
  simp only [meets_bind, meets_remembered, ending_ok]
  cases hf : m.find id with
  | some row =>
    obtain ⟨l, hl, rfl⟩ := Option.map_eq_some_iff.mp hf
    obtain ⟨hmem, hnow⟩ := hm l (List.mem_of_find?_eq_some hl)
    have hid : l.loaded.id = id := by simpa using List.find?_some hl
    exact hok l.now m hm hf (hnow ▸ hmem) ((congrArg Face.id hnow).trans hid)
  | none =>
    simp only [meets_bind, meets_query, ending_ok]
    cases hg : v.subscriptions.get id with
    | none => exact herr _
    | some row =>
      have hrow := Table.mem_of_get hg
      exact hok row _ (hm.load hrow) (Setting.find_load (Table.id_of_get hg)) (mem_faces hrow)
        (Table.id_of_get hg)

theorem refresh_level {C : Contract Memory Memory Store}
    {post : Memory → Except Fault (Subscription × Memory) → Store → Store → Prop} (hm : Level m v)
    (hok : ∀ row m', Level m' v → row ∈ v.subscriptions → row.id = id → post g (.ok (row, m')) b v)
    (herr : ∀ e, post g (.error e) b v) : (refresh id).Meets C post g m b v := by
  simp only [refresh, meets_bind, meets_query, ending_ok]
  cases hg : v.subscriptions.get id with
  | none => exact herr _
  | some row =>
    have hrow := Table.mem_of_get hg
    exact hok row _ (hm.load hrow) hrow (Table.id_of_get hg)

theorem holdSubscription_level {C : Contract Memory Memory Store}
    {post : Memory → Except Fault (Subscription × Memory) → Store → Store → Prop} (hm : Level m v)
    (hok : ∀ row m', Level m' v → row ∈ v.subscriptions → row.id = id → post g (.ok (row, m')) b v)
    (herr : ∀ e, post g (.error e) b v) : (holdSubscription id).Meets C post g m b v := by
  simp only [holdSubscription, meets_bind, meets_query, ending_ok]
  cases hg : v.subscriptions.get id with
  | none => exact herr _
  | some row =>
    have hrow := Table.mem_of_get hg
    exact hok row _ (hm.load hrow) hrow (Table.id_of_get hg)

/-- An attribute written in memory of a row, which the session has a copy of from then on. -/
theorem assign_level (move : Face → Face) {C : Contract Memory Memory Store}
    {f : Subscription → Subscription}
    {post : Memory → Except Fault (Unit × Memory) → Store → Store → Prop} (hm : Level m v)
    (hf : ∀ r, (f r).face = move r.face)
    (hok : ∀ m', Moves (moveOne id move) m' v → (∃ l ∈ m'.subscriptions, l.loaded.id = id) →
      post g (.ok ((), m')) b v)
    (herr : ∀ e, post g (.error e) b v) : (assign id f).Meets C post g m b v := by
  rw [assign, meets_bind]
  refine subscriptionOf_level hm (fun row m' hm' hfind _ _ => ?_) herr
  obtain ⟨l, hl, -⟩ := Option.map_eq_some_iff.mp hfind
  refine hok _ (hm'.assign hf) ⟨_, List.mem_map.mpr ⟨l, List.mem_of_find?_eq_some hl, rfl⟩, ?_⟩
  have hid : l.loaded.id = id := by simpa using List.find?_some hl
  split_ifs <;> exact hid

/-- A row that is rewritten where it is still what it was read as, with the copies of it. -/
theorem moveRow_level (move : Face → Face) {C : Contract Memory Memory Store}
    {still : Subscription → Bool} {f : Subscription → Subscription}
    {post : Memory → Except Fault (Bool × Memory) → Store → Store → Prop} (hm : Level m v)
    (hf : ∀ r, (f r).face = move r.face) (hid : ∀ face : Face, (move face).id = face.id)
    (hmoved : ∀ u m', faces u = moveOne id move '' faces v.subscriptions →
      Level m' { v with subscriptions := u } →
      post g (.ok (true, m')) b { v with subscriptions := u })
    (hkept : ∀ row m', row ∈ v.subscriptions → row.id = id → still row = false → Level m' v →
      post g (.ok (false, m')) b v)
    (herr : ∀ e, post g (.error e) b v) : (moveRow id still f).Meets C post g m b v := by
  have hfid : ∀ r : Subscription, (f r).id = r.id := fun r =>
    (congrArg Face.id (hf r)).trans (hid r.face)
  simp only [moveRow, meets_bind, meets_remember, meets_query, ending_ok]
  refine meets_ite.mpr ⟨fun _ => ?_, fun hstill => ?_⟩
  · simp only [meets_bind, meets_query, ending_ok]
    cases halter : v.subscriptions.alter (·.id == id) f with
    | none => exact herr _
    | some u =>
      have hu : faces u = moveOne id move '' faces v.subscriptions :=
        faces_map (fun _ => Table.mem_alter halter) fun a _ => face_one hf a
      refine hmoved u _ hu fun l hl => ?_
      obtain ⟨k, hk, rfl⟩ := List.mem_map.mp hl
      obtain ⟨hmem, hnow⟩ := hm k hk
      have hin : moveOne id move k.loaded.face ∈ faces u := hu ▸ ⟨_, hmem, rfl⟩
      split_ifs with hkid
      · rw [moveOne_self (beq_iff_eq.mp hkid), ← hf] at hin
        refine ⟨hin, ?_⟩
        change (f k.now).face = (f k.loaded).face
        rw [hf, hf, hnow]
        rfl
      · rw [moveOne_other fun h => hkid (beq_iff_eq.mpr h)] at hin
        exact ⟨hin, hnow⟩
  · rw [meets_bind]
    simp only [refresh, meets_bind, meets_query, ending_ok]
    cases hg : v.subscriptions.get id with
    | none => exact herr _
    | some row =>
      rw [hg] at hstill
      refine hkept row _ (Table.mem_of_get hg) (Table.id_of_get hg) (by simpa using hstill)
        fun l hl => ?_
      rcases List.mem_cons.mp hl with rfl | hl
      · exact ⟨mem_faces (Table.mem_of_get hg), rfl⟩
      · obtain ⟨hmem, hne⟩ := List.mem_filter.mp hl
        obtain ⟨k, hk, rfl⟩ := List.mem_map.mp hmem
        split_ifs at hne ⊢ with hkid
        · have hgone : (f k.loaded).id = row.id :=
            (hfid _).trans ((beq_iff_eq.mp hkid).trans (Table.id_of_get hg).symm)
          simp [hgone] at hne
        · exact hm k hk

end FastKit
