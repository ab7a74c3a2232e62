import FastKit.Webhooks.Keeps

/-! # Runs of calls

Every call keeps to the changes, so what the changes preserve holds of every store that a
run of calls reaches, in whatever order their sessions take turns.
-/

namespace FastKit
open Transaction Transaction.Program

namespace Setting
variable {S : Setting} {g m : Memory} {b v : Store}

theorem createTransaction_keeps (userId currencyId : ℕ) (type : CreditTransactionType) (amount : ℤ)
    (description : Option String) (token : ℕ) :
    S.Keeps (createTransaction .whole userId currencyId type amount description token) := by
  refine Keeps.bind (keeps_query _) fun _ => keeps_ite (keeps_raise (S.faults _ rfl)) ?_
  refine Keeps.bind (keeps_query _) fun _ => keeps_ite (keeps_raise (S.faults _ rfl)) ?_
  intro g m b v h
  have hmoved : S.Moved g b v (.token token) none :=
    ⟨paid_none _, delivers_none, by intro reference hk; cases hk⟩
  refine meets_bind_keeps (move_keeps h hmoved) fun _ g m b v h => ?_
  exact keeps_meets (Keeps.bind persist_keeps fun _ => keeps_pure _) h

/-- The due pass, where it may be ended by an operation on a benefit with no date. -/
theorem processEach_keeps (hS : S.Able)
    (hd : ∀ {g b m} x, S.shows g b m → S.shows g b (m.setDue x)) (moment : ℕ) (ids : List ℕ) :
    S.loud.Keeps (processEach moment ids) := by
  induction ids with
  | nil => exact keeps_pure []
  | cons id rest ih =>
    intro g m b v h
    refine meets_bind_keeps (c := remember (Memory.setDue (some (moment, rest))))
      (show S.loud.Inside g _ b v from ⟨h.base, h.path, h.copies, h.orders, hd _ h.shows⟩)
      fun _ g m b v h => ?_
    refine meets_bind_reads (benefitOf_reads id h) kept_error fun benefit m h hb => ?_
    split
    · exact h.fail trivial
    · refine keeps_meets (Keeps.bind (writeBenefits_keeps (fun _ => rfl) hS.loud.writes) fun _ => ?_) h
      exact Keeps.bind commit_keeps fun _ => ih
    · rename_i slot moved hr
      refine meets_bind_keeps (hS.loud.cycle h hb.1 (names_cycleKey (interval_of_resolveDueSlot hr)
        slot)) fun grant g m b v h => ?_
      exact keeps_meets (Keeps.bind letGo_keeps fun _ => Keeps.bind ih fun _ => keeps_pure _) h

theorem processDue_keeps (hS : S.Able)
    (hd : ∀ {g b m} x, S.shows g b m → S.shows g b (m.setDue x)) : S.loud.Keeps processDue :=
  Keeps.bind (keeps_query _) fun _ => Keeps.bind (keeps_query _) fun _ =>
    processEach_keeps hS hd _ _

end Setting

open Setting

/-- What the sessions of every call run under. -/
structure Serves (F : Option (ℕ × ℕ) → Setting) : Prop extends Inbox F where
  sweeps : ∀ G, (F none).Keeps (reconcileStale G)
  dues : (F none).Keeps processDue
  lapses : ∀ duration, (F none).lapses duration

theorem serves_of {S : Setting} (hS : S.Able) (ht : S.Stamps) (hq : S.Quiet)
    (he : ∀ g b e e', (S.scope g b).event e e')
    (hh : ∀ {g b m} x, S.shows g b m → S.shows g b (m.setEvent x))
    (hd : ∀ {g b m} x, S.shows g b m → S.shows g b (m.setDue x)) : Serves (fun _ => S.loud) where
  toInbox := inbox_of hS ht hq he hh
  sweeps := reconcileStale_keeps hS ht hq
  dues := processDue_keeps hS hd
  lapses := ht.lapses

/-- Every call but an operator's edit keeps to the changes. -/
theorem Serves.serve_keeps {F : Option (ℕ × ℕ) → Setting} (hF : Serves F) (c : Call)
    (hc : ∀ catalog, c ≠ .edit catalog) : (F none).Keeps c.serve := by
  have hS := hF.able none
  cases c with
  | activate id => exact Keeps.bind (activate_keeps hS id) fun _ => keeps_pure ()
  | processDue => exact Keeps.bind hF.dues fun _ => keeps_pure ()
  | retryFailedGrants => exact Keeps.bind hS.retry fun _ => keeps_pure ()
  | expireSubscriptions => exact Keeps.bind (expireSubscriptions_keeps hS) fun _ => keeps_pure ()
  | openNewCycle id operator =>
    exact Keeps.bind (openNewCycle_keeps hS id operator) fun _ => keeps_pure ()
  | apply integration user held complete statedAt =>
    exact Keeps.bind (apply_keeps hS _ _ _ _ _) fun _ => keeps_pure ()
  | settlePurchase purchase notices => exact settleEachNotice_keeps purchase notices
  | forProduct user product integration reference opened => exact forProduct_keeps _ _ _ _ _
  | receive G key call => exact hF.receive_keeps G key call
  | closeExhausted => exact hF.closeExhausted_keeps
  | retryFailed G => exact Keeps.bind (hF.retryFailed_keeps G) fun _ => keeps_pure ()
  | reconcileStale G => exact Keeps.bind (hF.sweeps G) fun _ => keeps_pure ()
  | subscriptionCycle G =>
    refine Keeps.bind hF.closeExhausted_keeps fun _ => Keeps.bind (hF.sweeps G) fun _ => ?_
    refine Keeps.bind (expireSubscriptions_keeps hS) fun _ => Keeps.bind hF.dues fun _ => ?_
    refine Keeps.bind hS.retry fun _ => ?_
    exact Keeps.bind (hF.retryFailed_keeps G) fun _ => keeps_pure ()
  | edit catalog => exact absurd rfl (hc catalog)
  | createTransaction user currency type amount token =>
    exact Keeps.bind (createTransaction_keeps _ _ _ _ _ _) fun _ => keeps_pure ()
  | tick by' => exact elapse_keeps (hF.lapses by')

/-- An operator's edit is one segment. -/
theorem serve_edit {C : Contract Memory Memory Store} {g m : Memory} {b v : Store}
    {post : Memory → Except Fault (Unit × Memory) → Store → Store → Prop} (catalog : Catalog) :
    (Call.edit catalog).serve.Meets C post g m b v ↔ ∃ g', C.guar g b g' { v with catalog := catalog } ∧
      C.shows g' m ∧ ∀ t, C.rely g' { v with catalog := catalog } t → post g' (.ok ((), m)) t t := by
  simp [Call.serve]

/-- The contract of a session of which nothing is asked but that it keeps to the changes. -/
def anyContract : Contract Memory Memory Store where
  rely := fun _ s t => Path .any s t
  guar := fun _ s _ t => Path .any s t
  shows := Eq
  prompt := True

def anySetting : Setting where
  contract := anyContract
  scope := fun _ _ => { Scope.any with edit := False, tick := False }
  shows := fun _ _ _ => True
  fault := fun e => ¬Fault.outage e
  inv := fun _ _ => True
  lapses := fun _ => True
  prompt := trivial
  rely := fun h => h
  guar := fun _ c duration _ => c.any.tail (.tick duration trivial)
  waits := fun _ => rfl
  restart := fun _ _ => trivial
  rescued := fun _ _ => trivial
  loads := fun _ _ _ _ => trivial
  plan := fun _ _ => trivial
  faults := Fault.not_outage
  inv_change := fun _ _ => trivial
  inv_rely := fun _ _ _ => trivial
  inv_tick := fun _ _ _ => trivial
  unedited := fun _ _ h => h
  untimed := fun _ _ h => h

theorem anySetting_works : anySetting.Works where
  agenda := fun _ _ _ _ _ => trivial
  mark := fun _ _ _ _ => trivial
  delivers := fun _ _ _ => trivial

theorem anySetting_serves : Serves (fun _ => anySetting.loud) :=
  serves_of (anySetting_works.able (fun _ _ _ _ => trivial) (fun _ _ _ => trivial)
    (fun _ _ _ => trivial)) ⟨fun _ _ _ _ => trivial, fun _ => trivial⟩ (fun _ h => h)
    (fun _ _ _ _ => trivial)
    (fun _ _ => trivial) (fun _ _ => trivial)

/-- Every session of a call waits as its contract says. -/
theorem session_waits (c : Call) (s : Store) :
    Pool.Waits anyContract (fun _ _ => True) (fun _ _ _ _ => True)
      (Program.session c.serve Memory.empty s) Memory.empty s := by
  refine ⟨rfl, fun t _ _ => ?_⟩
  change c.serve.Meets anyContract _ Memory.empty Memory.empty t t
  by_cases hc : ∃ catalog, c = .edit catalog
  · obtain ⟨catalog, rfl⟩ := hc
    rw [serve_edit]
    exact ⟨_, .single (.edit catalog trivial), rfl, fun _ _ => trivial⟩
  · push Not at hc
    have h : anySetting.loud.Inside Memory.empty Memory.empty t t :=
      ⟨trivial, .refl, by simp [Memory.empty], by simp [Memory.empty], trivial⟩
    exact (anySetting_serves.serve_keeps c hc _ _ _ _ h).mono (fun _ _ _ _ _ => trivial)

/-- What the sessions of every call are compatible in. -/
theorem any_compatible (ok : Sessions → ℕ → Sessions → Prop) :
    Pool.Compatible ok (fun _ => anyContract) (fun _ _ => True) (fun _ _ => True) where
  refl := fun _ _ _ => .refl
  trans := fun _ _ _ _ _ => .trans
  since_refl := fun _ => trivial
  since_trans := fun _ _ _ _ _ => trivial
  since_guar := fun _ _ _ _ => trivial
  kept := fun _ _ _ _ => trivial
  others := fun _ _ _ _ _ h => h

/-- Every turn of a run of calls makes changes. -/
theorem run_turns {ok : Sessions → ℕ → Sessions → Prop} {calls : List Call} {s : Store}
    {trace : List (Turn Store)} {q : Sessions} (run : Pool.Run ok (sessions calls s) trace q) :
    ∀ t ∈ trace, Path .any t.before t.after := by
  obtain ⟨h, past, -, -⟩ := run.explained (any_compatible ok) (g := fun _ => Memory.empty)
    trivial fun i o hi => by
      obtain ⟨c, -, rfl⟩ := List.mem_map.mp (List.mem_of_getElem? hi)
      exact session_waits c s
  exact past.related (fun _ => .refl) fun _ _ _ _ _ h => h

/-- Where a run goes on from a store it reached, it makes changes. -/
theorem path_run {ok : Sessions → ℕ → Sessions → Prop} {calls : List Call} {s : Store}
    {trace rest : List (Turn Store)} {q r : Sessions}
    (run : Pool.Run ok (sessions calls s) trace q) (later : Pool.Run ok q rest r) :
    Path .any q.store r.store := by
  induction later with
  | start => exact .refl
  | turn i past taken holds ih =>
    exact ih.trans (run_turns (run.append (.turn i past taken holds)) ⟨i, _, _⟩ (by simp))

/-- What each turn that satisfies `ok` preserves, given that its writes are changes, holds
of every store a run of calls reaches. -/
theorem run_preserves {ok : Sessions → ℕ → Sessions → Prop} {I : Store → Prop}
    (step : ∀ q i r, ok q i r → Path .any q.store r.store → I q.store → I r.store)
    {calls : List Call} {s : Store} {trace : List (Turn Store)} {q : Sessions}
    (run : Pool.Run ok (sessions calls s) trace q) (start : I s) : I q.store := by
  induction run with
  | start => exact start
  | turn i past taken holds ih =>
    exact step _ _ _ holds (run_turns (.turn i past taken holds) ⟨i, _, _⟩ (by simp)) ih

/-- The setting of a session nobody runs beside, whose segments start on what it changed so far. -/
def sinceSetting (s : Store) : Setting := { anySetting with
  contract := { anyContract with rely := fun _ s t => s = t }
  inv := fun _ t => Path .any s t
  rely := fun h => h ▸ .refl
  restart := fun _ _ => trivial
  inv_change := fun c h => h.tail c.any
  inv_rely := fun _ h hs => h ▸ hs
  inv_tick := fun duration _ h => h.tail (.tick duration trivial) }

theorem sinceSetting_serves (s : Store) : Serves (fun _ => (sinceSetting s).loud) :=
  serves_of (Setting.Works.able (S := sinceSetting s)
      ⟨⟨fun _ _ _ _ _ => trivial⟩, fun _ _ _ _ => trivial, fun _ _ _ => trivial⟩
      (fun _ _ _ _ => trivial) (fun _ _ _ => trivial) (fun _ _ _ => trivial))
    ⟨fun _ _ _ _ => trivial, fun _ => trivial⟩ (fun _ h => h) (fun _ _ _ _ => trivial)
    (fun _ _ => trivial) (fun _ _ => trivial)

/-- A call that nobody else runs beside makes changes. -/
theorem Call.alone_path {c : Call} {s t : Store} (h : c.alone s = .ok t) : Path .any s t := by
  by_cases hc : ∃ catalog, c = .edit catalog
  · obtain ⟨catalog, rfl⟩ := hc
    obtain rfl := Except.ok.inj h
    exact .single (.edit catalog trivial)
  · push Not at hc
    have hin : (sinceSetting s).loud.Inside Memory.empty Memory.empty s s :=
      ⟨.refl, .refl, by simp [Memory.empty], by simp [Memory.empty], trivial⟩
    obtain ⟨g, hkept⟩ := run_of_meets trivial (fun _ _ => rfl)
      ((sinceSetting_serves s).serve_keeps c hc _ _ _ _ hin)
    unfold Call.alone at h
    generalize c.serve.run Memory.empty s s = ended at h hkept
    obtain ⟨e | p, base, view⟩ := ended
    · cases h
    · obtain rfl := Except.ok.inj h
      exact hkept.base

theorem path_after {calls : List Call} {s t : Store} (h : after calls s = .ok t) :
    Path .any s t := by
  induction calls generalizing s with
  | nil =>
    obtain rfl := Except.ok.inj h
    exact .refl
  | cons c rest ih =>
    rw [after] at h
    cases hc : c.alone s with
    | error e =>
      rw [hc] at h
      cases h
    | ok w =>
      rw [hc] at h
      exact (Call.alone_path hc).trans (ih h)

end FastKit
