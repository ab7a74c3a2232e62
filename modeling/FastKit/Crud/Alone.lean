import FastKit.Crud.Writes

/-! # Calls that run alone

A call that writes a row and that nothing runs beside: it is answered with nothing written, or what it
was checked for stands where it wrote.
-/

namespace FastKit.Crud
open Relational Transaction Transaction.Program

variable {π δ : Type} {V : Services π δ} {operator : Operator} {m : Model} {s u t : Store δ} {row : Row δ}
  {data : Data π} {instance' : Option (Row δ)} {id : ℕ}

/-- A call of a service that writes a row. -/
inductive Write (π : Type) where
  | create (m : Model) (data : Data π)
  | update (m : Model) (id : ℕ) (data : Data π)

def Write.model : Write π → Model
  | create m _ => m
  | update m _ _ => m

def Write.serve (V : Services π δ) (operator : Operator) : Write π → Db δ (Row δ)
  | create m data => Crud.create V operator m data
  | update m id data => Crud.update V operator m id data

def after (V : Services π δ) (operator : Operator) (w : Write π) (s : Store δ) : Store δ :=
  ((w.serve V operator).run () s s).2.1

theorem ensureReferences_alone (operator : Operator) (m : Model) (data : Data π)
    (instance' : Option (Row δ)) (s : Store δ) (keys : List (Key Model Column)) :
    ∃ res, (ensureReferencesAreReachable operator m data instance' keys).run () s s = (res, s, s) ∧
      ∀ g, res = .ok g → ∀ k ∈ keys, ∀ id, asked data instance' k = some id →
        ∃ p, find operator k.target id (parental m k) s = some p := by
  induction keys with
  | nil => exact ⟨_, rfl, fun _ _ k hk => absurd hk List.not_mem_nil⟩
  | cons k keys ih =>
    obtain ⟨res, hrun, hres⟩ := ih
    cases hasked : asked data instance' k with
    | none =>
      refine ⟨res, by simp only [ensureReferencesAreReachable, hasked, hrun], fun g hg k' hk' id hid => ?_⟩
      rcases List.mem_cons.mp hk' with rfl | hk'
      · rw [hasked] at hid
        cases hid
      · exact hres g hg k' hk' id hid
    | some id =>
      simp only [ensureReferencesAreReachable, hasked, run_bind, run_query, onward_ok]
      cases hfind : find operator k.target id
          (decide (Option.map Reach.column m.reachesThrough = some k.column)) s with
      | none => exact ⟨_, rfl, fun _ hg => by cases hg⟩
      | some p =>
        refine ⟨res, by simp only [pass, run_bind, run_yield, onward_ok, id_eq, hrun],
          fun g hg k' hk' id' hid => ?_⟩
        rcases List.mem_cons.mp hk' with rfl | hk'
        · rw [hasked] at hid
          obtain rfl := Option.some.inj hid
          exact ⟨p, hfind⟩
        · exact hres g hg k' hk' id' hid

theorem referrersAreGone_alone (id : ℕ) (s : Store δ) (l : List (Model × Key Model Column)) :
    ∃ res, (referrersAreGone id l : Db δ Unit).run () s s = (res, s, s) ∧
      ∀ g, res = .ok g → ∀ q ∈ l, ∀ r ∈ s q.1, r.refs q.2.column ≠ some id := by
  induction l with
  | nil => exact ⟨_, rfl, fun _ _ q hq => absurd hq List.not_mem_nil⟩
  | cons q l ih =>
    obtain ⟨res, hrun, hres⟩ := ih
    obtain ⟨n, k⟩ := q
    simp only [referrersAreGone, run_bind, run_query, onward_ok]
    cases hany : (s n).rows.any (fun r => r.refs k.column = some id) with
    | true => exact ⟨_, rfl, fun _ hg => by cases hg⟩
    | false =>
      refine ⟨res, by simp only [Bool.false_eq_true, if_false, pass, run_bind, run_yield, onward_ok, id_eq,
        hrun], fun g hg q hq r hr href => ?_⟩
      rcases List.mem_cons.mp hq with rfl | hq
      · have hthere : (s n).rows.any (fun r => r.refs k.column = some id) = true :=
          List.any_eq_true.mpr ⟨r, hr, decide_eq_true href⟩
        rw [hany] at hthere
        cases hthere
      · exact hres g hg q hq r hr href

theorem childrenAreShared_alone (id : ℕ) (s : Store δ) (l : List (Model × Column × Key Model Column)) :
    ∃ res, (childrenAreShared id l : Db δ Unit).run () s s = (res, s, s) ∧
      ∀ g, res = .ok g → ∀ q ∈ l, ∀ r ∈ s q.1, r.refs q.2.1 = some id → ∀ p, follow s r q.2.2 = some p →
        p.refs .tenantId = none := by
  induction l with
  | nil => exact ⟨_, rfl, fun _ _ q hq => absurd hq List.not_mem_nil⟩
  | cons q l ih =>
    obtain ⟨res, hrun, hres⟩ := ih
    obtain ⟨n, column, k⟩ := q
    simp only [childrenAreShared, run_bind, run_query, onward_ok]
    cases hany : (s n).rows.any (fun r => r.refs column = some id &&
        (follow s r k).any (fun p => (p.refs .tenantId).isSome)) with
    | true => exact ⟨_, rfl, fun _ hg => by cases hg⟩
    | false =>
      refine ⟨res, by simp only [Bool.false_eq_true, if_false, pass, run_bind, run_yield, onward_ok, id_eq,
        hrun], fun g hg q hq r hr href p hp => ?_⟩
      rcases List.mem_cons.mp hq with rfl | hq
      · by_contra hsome
        have hthere : (s n).rows.any (fun r => r.refs column = some id &&
            (follow s r k).any (fun p => (p.refs .tenantId).isSome)) = true := by
          refine List.any_eq_true.mpr ⟨r, hr, ?_⟩
          simp [href, hp, Option.isSome_iff_ne_none, hsome]
        rw [hany] at hthere
        cases hthere
      · exact hres g hg q hq r hr href p hp

/-- What stands where a row was written over the one that was read. -/
structure Passed (V : Services π δ) (operator : Operator) (m : Model) (data : Data π) (row : Row δ)
    (s u t : Store δ) : Prop where
  asked : ∀ k ∈ m.keys, ∀ id, asked data (some row) k = some id →
    ∃ p, find operator k.target id (parental m k) s = some p
  referrers : m.hasTenant = true → tenantOf data row ≠ none → tenantOf data row ≠ row.refs .tenantId →
    ∀ n, ∀ k ∈ n.keys, k.target = m → ∀ r ∈ s n, r.refs k.column ≠ some row.id
  children : m.hasTenant = true → row.refs .tenantId ≠ none → tenantOf data row = none →
    ∀ q ∈ childKeys m, ∀ r ∈ s q.1, r.refs q.2.1 = some row.id → ∀ p, follow s r q.2.2 = some p →
      p.refs .tenantId = none
  valid : validateReaches m data (some row) s = none
  identities : moveIdentities V m data row s = some u
  flushed : updateRow V m data row u = .ok t

theorem ensureReferrers_alone (m : Model) (data : Data π) (row : Row δ) (s : Store δ) :
    ∃ res, (ensureReferrersStillReach m data row : Db δ Unit).run () s s = (res, s, s) ∧
      ∀ g, res = .ok g → m.hasTenant = true → tenantOf data row ≠ none →
        tenantOf data row ≠ row.refs .tenantId →
        ∀ n, ∀ k ∈ n.keys, k.target = m → ∀ r ∈ s n, r.refs k.column ≠ some row.id := by
  unfold ensureReferrersStillReach
  split_ifs with hskip
  · refine ⟨_, rfl, fun _ _ htenant hsome hmoved => ?_⟩
    simp [htenant, hsome, hmoved] at hskip
  · obtain ⟨res, hrun, hres⟩ := referrersAreGone_alone row.id s (referring m)
    refine ⟨res, hrun, fun g hg _ _ _ n k hk htarget r hr => ?_⟩
    refine hres g hg (n, k) (List.mem_flatMap.mpr ⟨n, n.mem_all, List.mem_map.mpr ⟨k, ?_, rfl⟩⟩) r hr
    exact List.mem_filter.mpr ⟨hk, decide_eq_true htarget⟩

theorem ensureChildren_alone (m : Model) (data : Data π) (row : Row δ) (s : Store δ) :
    ∃ res, (ensureChildrenStayShared m data row : Db δ Unit).run () s s = (res, s, s) ∧
      ∀ g, res = .ok g → m.hasTenant = true → row.refs .tenantId ≠ none → tenantOf data row = none →
        ∀ q ∈ childKeys m, ∀ r ∈ s q.1, r.refs q.2.1 = some row.id → ∀ p, follow s r q.2.2 = some p →
          p.refs .tenantId = none := by
  unfold ensureChildrenStayShared
  split_ifs with hskip
  · refine ⟨_, rfl, fun _ _ htenant hsome hnone => ?_⟩
    simp [htenant, hsome, hnone] at hskip
  · obtain ⟨res, hrun, hres⟩ := childrenAreShared_alone row.id s (childKeys m)
    exact ⟨res, hrun, fun g hg _ _ _ => hres g hg⟩

/-- An edit that runs alone writes nothing, or all of what it was checked for. -/
theorem update_alone : (∃ e v, (update V operator m id data).run () s s = (.error e, s, v)) ∨
    ∃ row u t, find operator m id true s = some row ∧
      Passed V operator m (stamped V operator m data) row s u t ∧
      (update V operator m id data).run () s s = (get operator m id false).run () t t := by
  unfold update get
  simp only [run_bind, run_query, onward_ok]
  cases hfind : find operator m id true s with
  | none => exact .inl ⟨_, _, rfl⟩
  | some row =>
    obtain ⟨references, hreferences, hasked⟩ := ensureReferences_alone operator m
      (stamped V operator m data) (some row) s m.keys
    obtain ⟨referrers, hreferrers, hgone⟩ := ensureReferrers_alone m (stamped V operator m data) row s
    obtain ⟨children, hchildren, hshared⟩ := ensureChildren_alone m (stamped V operator m data) row s
    simp only [run_require_some, onward_ok, pass, run_bind, run_yield, id_eq, hreferences]
    rcases references with e | ⟨⟨⟩, ⟨⟩⟩
    · exact .inl ⟨_, _, rfl⟩
    · simp only [onward_ok, run_bind, hreferrers]
      rcases referrers with e | ⟨⟨⟩, ⟨⟩⟩
      · exact .inl ⟨_, _, rfl⟩
      · simp only [onward_ok, run_bind, hchildren]
        rcases children with e | ⟨⟨⟩, ⟨⟩⟩
        · exact .inl ⟨_, _, rfl⟩
        · simp only [onward_ok, run_bind, run_query]
          cases hvalid : validate V m (stamped V operator m data) (some row) s with
          | some e => exact .inl ⟨_, _, rfl⟩
          | none =>
            simp only [run_bind, run_yield, onward_ok, id_eq, run_query]
            cases hmoved : moveIdentities V m (stamped V operator m data) row s with
            | none => exact .inl ⟨_, _, rfl⟩
            | some u =>
              simp only [run_bind, run_execute, onward_ok, run_query]
              cases hupdate : updateRow V m (stamped V operator m data) row u with
              | error e => exact .inl ⟨_, _, rfl⟩
              | ok t =>
                refine .inr ⟨row, u, t, rfl, ⟨hasked _ rfl, hgone _ rfl, hshared _ rfl,
                  (Option.or_eq_none_iff.mp hvalid).2, hmoved, hupdate⟩, ?_⟩
                simp only [run_bind, run_execute, onward_ok, run_publish, run_query]

/-- A creation that runs alone writes nothing, or the row it was checked for. -/
theorem create_alone : (∃ e v, (create V operator m data).run () s s = (.error e, s, v)) ∨
    ∃ row t, (∀ k ∈ m.keys, ∀ id, asked (stamped V operator m data) (none : Option (Row δ)) k = some id →
        ∃ p, find operator k.target id (parental m k) s = some p) ∧
      validateReaches m (stamped V operator m data) none s = none ∧
      insertRow V m (made V m (stamped V operator m data)) s = some (row, t) ∧
      (create V operator m data).run () s s = (get operator m row.id false).run () t t := by
  unfold create
  obtain ⟨references, hreferences, hasked⟩ := ensureReferences_alone operator m
    (stamped V operator m data) none s m.keys
  simp only [run_bind, hreferences]
  rcases references with e | ⟨⟨⟩, ⟨⟩⟩
  · exact .inl ⟨_, _, rfl⟩
  · simp only [onward_ok, run_bind, run_query]
    cases hvalid : validate V m (stamped V operator m data) none s with
    | some e => exact .inl ⟨_, _, rfl⟩
    | none =>
      simp only [pass, run_bind, run_yield, onward_ok, id_eq, run_query]
      cases hinsert : insertRow V m (made V m (stamped V operator m data)) s with
      | none => exact .inl ⟨_, _, rfl⟩
      | some q =>
        refine .inr ⟨q.1, q.2, hasked _ rfl, (Option.or_eq_none_iff.mp hvalid).2, rfl, ?_⟩
        simp only [run_bind, run_execute, onward_ok, run_publish]

end FastKit.Crud
