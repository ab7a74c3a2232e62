import FastKit.Events.Steps

/-! # An event is read once

A session in time has the event it took as it took it. An event nothing acts on again then stays
as it is until retention drops it, so what a run records is one entry of every event it read.
-/

namespace FastKit.Events
open Transaction Transaction.Program

variable {c : Call} {m m' : Memory} {s t : Store} {moment : ℕ} {row row' record : AppEvent}
  {q r : Sessions} {i : ℕ} {calls : List Call} {trace : List (Turn Store)}

/-- An event is a pass's until `ABANDONED_AFTER` after the pass took it. -/
def leasing : Leasing Memory Store AppEvent where
  table := (·.events)
  clock := (·.clock)
  held := (·.held)
  busy := (·.status == .processing)
  stamp := (·.updatedAt)
  window := abandonedAfter

/-- Nothing acts on the event again. -/
def final (e : AppEvent) : Bool :=
  e.status == .processed || e.status == .ignored || (e.status == .failed && maxAttempts ≤ e.attempts)

/-- What the app said of an event, and when. -/
def AppEvent.content (e : AppEvent) :=
  (e.id, e.tenantId, e.userId, e.uuid, e.name, e.params, e.occurredAt, e.createdAt)

/-- What one step of a session does to a row. -/
inductive Moved (moment : ℕ) (m : Memory) (row : AppEvent) : AppEvent → Prop where
  | still : Moved moment m row row
  | taken (waits : takeable moment row = true) : Moved moment m row (taken moment row)
  | closed (gone : exhausted moment row = true) : Moved moment m row (closedExhausted moment row)
  | read {l : Lease} {record : AppEvent} (held : m.held = some l) (loaded : m.record = some record)
      (own : record.id = l.row) (same : row.id = record.id) :
      Moved moment m row (AppEvent.write record (settledEvent
        (eventCategories.lookup record.name).isSome moment record) moment row)
  | broke {l : Lease} {record : AppEvent} {error : Fault} (held : m.held = some l)
      (loaded : m.record = some record) (own : record.id = l.row) (same : row.id = record.id) :
      Moved moment m row (AppEvent.write record (brokenEvent error moment record) moment row)

theorem Moved.content (h : Moved moment m row row') : row'.content = row.content := by
  cases h <;> rfl

theorem content_id (h : row'.content = row.content) : row'.id = row.id := congrArg Prod.fst h

theorem Works.clock (h : Works c m s m' t) : s.clock ≤ t.clock := by
  cases h with
  | ingested called once stored =>
    rw [stored.kept]
  | ticked duration => exact Nat.le_add_right _ _
  | _ => exact le_rfl

theorem Works.next (h : Works c m s m' t) : s.events.next ≤ t.events.next := by
  cases h with
  | ingested called once stored => exact stored.next
  | _ => exact le_rfl

/-- Every row of a step is one that was there, moved, or was just reported. -/
theorem Works.cases (h : Works c m s m' t) : ∀ row' ∈ t.events,
    (∃ row ∈ s.events, Moved s.clock m row row') ∨
      (s.events.next ≤ row'.id ∧ row'.status = .pending) := by
  intro row' hrow
  cases h with
  | rest | knew | loaded | lost | doomed | ticked => exact .inl ⟨row', hrow, .still⟩
  | ingested called once stored =>
    rw [← Table.mem_rows, stored.rows, List.mem_append] at hrow
    rcases hrow with hrow | hrow
    · exact .inl ⟨row', hrow, .still⟩
    · obtain ⟨event, -, id, hid, rfl⟩ := stored.pending row' hrow
      exact .inr ⟨hid, rfl⟩
  | took found waits =>
    obtain ⟨a, ha, rfl⟩ := (Table.mem_modify (still_taken _)).mp hrow
    refine .inl ⟨a, ha, ?_⟩
    split_ifs with hp
    · exact .taken (Bool.and_eq_true_iff.mp hp).2
    · exact .still
  | closed =>
    obtain ⟨a, ha, rfl⟩ := (Table.mem_modify (still_closedExhausted _)).mp hrow
    refine .inl ⟨a, ha, ?_⟩
    split_ifs with hp
    · exact .closed hp
    · exact .still
  | read held loaded own found same =>
    obtain ⟨a, ha, rfl⟩ := (Table.mem_modify (still_write _ _ _)).mp hrow
    refine .inl ⟨a, ha, ?_⟩
    split_ifs with hp
    · exact .read held loaded own (beq_iff_eq.mp hp)
    · exact .still
  | broke held loaded own found same =>
    obtain ⟨a, ha, rfl⟩ := (Table.mem_modify (still_write _ _ _)).mp hrow
    refine .inl ⟨a, ha, ?_⟩
    split_ifs with hp
    · exact .broke held loaded own (beq_iff_eq.mp hp)
    · exact .still
  | dropped => exact .inl ⟨row', (Table.mem_erase.mp hrow).1, .still⟩

/-- An event stays, moved or not, where its id was not read to be dropped. -/
theorem Works.kept (h : Works c m s m' t) (hrow : row ∈ s.events) :
    (∃ row' ∈ t.events, row'.id = row.id) ∨
      (row.id ∈ m.doomed ∧ t.events = s.events.erase (fun e => m.doomed.contains e.id)) := by
  cases h with
  | rest | knew | loaded | lost | doomed | ticked => exact .inl ⟨row, hrow, rfl⟩
  | ingested called once stored =>
    refine .inl ⟨row, ?_, rfl⟩
    rw [← Table.mem_rows, stored.rows]
    exact List.mem_append_left _ hrow
  | took =>
    exact .inl (Table.exists_modify (still_taken _) (fun a b => b.id = a.id) (fun _ => rfl)
      (fun _ => rfl) hrow)
  | closed =>
    exact .inl (Table.exists_modify (still_closedExhausted _) (fun a b => b.id = a.id)
      (fun _ => rfl) (fun _ => rfl) hrow)
  | read | broke =>
    exact .inl (Table.exists_modify (still_write _ _ _) (fun a b => b.id = a.id) (fun _ => rfl)
      (fun _ => rfl) hrow)
  | dropped =>
    by_cases hdoomed : row.id ∈ m.doomed
    · exact .inr ⟨hdoomed, rfl⟩
    · exact .inl ⟨row, Table.mem_erase.mpr ⟨hrow, by simpa using hdoomed⟩, rfl⟩

/-- What a session loaded of the event it has in hand, and what it read to drop. -/
structure Tracked (c : Call) (s : Store) (m : Memory) : Prop where
  copy : ∀ record ∈ m.record, record.status = .processing ∧ record.id < s.events.next
  agrees : ∀ record ∈ m.record, ∀ row ∈ s.events, row.id = record.id → row.content = record.content
  before : ∀ days size pages, c = .discard days size pages → m.before ≤ s.clock - days * Calendar.day
  called : m.doomed ≠ [] → ∃ days size pages, c = .discard days size pages ∧ 0 < days
  doomed : ∀ id ∈ m.doomed, id < s.events.next ∧ ∀ row ∈ s.events, row.id = id →
    settled m.before row = true

theorem final_cases : final row = true ↔ row.status = .processed ∨ row.status = .ignored ∨
    (row.status = .failed ∧ maxAttempts ≤ row.attempts) := by
  simp [final, or_assoc]

theorem final_not_takeable (h : final row = true) : takeable moment row = false := by
  rcases final_cases.mp h with hs | hs | ⟨hs, hspent⟩
  · simp [takeable, abandoned, hs]
  · simp [takeable, abandoned, hs]
  · simp [takeable, Nat.not_lt.mpr hspent]

theorem final_not_processing (h : final row = true) : row.status ≠ .processing := by
  rcases final_cases.mp h with hs | hs | ⟨hs, -⟩ <;> simp [hs]

theorem inHand_processing {l : Lease} (h : leasing.InHand s l) (hrow : row ∈ s.events)
    (hid : row.id = l.row) : row.status = .processing :=
  beq_iff_eq.mp (h.found hrow hid).1

/-- A session in time leaves alone what nothing acts on again. -/
theorem Moved.final (h : Moved moment m row row') (hrow : row ∈ s.events)
    (hin : ∀ l ∈ m.held, leasing.InHand s l) (hf : final row = true) : row' = row := by
  have hidle := final_not_processing hf
  cases h with
  | still => rfl
  | taken waits =>
    rw [final_not_takeable hf] at waits
    cases waits
  | closed gone =>
    simp only [exhausted, abandoned, Bool.and_eq_true, beq_iff_eq] at gone
    exact absurd gone.1.1 hidle
  | read held loaded own same =>
    exact absurd (inHand_processing (hin _ held) hrow (same.trans own)) hidle
  | broke held loaded own same =>
    exact absurd (inHand_processing (hin _ held) hrow (same.trans own)) hidle

theorem settled_iff {before : ℕ} : settled before row = true ↔
    row.createdAt < before ∧ Events.final row = true := by
  simp [settled, Events.final]

/-- What is kept of an event through a step in time. -/
theorem Works.stays (h : Works c m s m' t) (hin : ∀ l ∈ m.held, leasing.InHand s l)
    (hrow : row ∈ s.events) (hf : Events.final row = true) :
    row ∈ t.events ∨ (row.id ∈ m.doomed ∧ ∀ row' ∈ t.events, row'.id ≠ row.id) := by
  rcases h.kept hrow with ⟨row', hrow', hid⟩ | ⟨hdoomed, herase⟩
  · rcases h.cases row' hrow' with ⟨a, ha, hmoved⟩ | ⟨hnew, -⟩
    · obtain rfl : a = row := Table.eq_of_id ha hrow ((content_id hmoved.content).symm.trans hid)
      rw [hmoved.final ha hin hf] at hrow'
      exact .inl hrow'
    · have := s.events.fresh row hrow
      exact absurd (hnew.trans hid.le) (Nat.not_le.mpr this)
  · refine .inr ⟨hdoomed, fun row' hrow' hid => ?_⟩
    rw [herase, Table.mem_erase, hid] at hrow'
    simp [hdoomed] at hrow'

theorem abandoned_lapsed (h : abandoned moment row = true) : row.updatedAt + abandonedAfter < moment := by
  simp only [abandoned, Bool.and_eq_true, decide_eq_true_eq] at h
  exact h.2

theorem takeable_free (h : takeable s.clock row = true) : leasing.Free s row := by
  simp only [takeable, Bool.and_eq_true, Bool.or_eq_true, beq_iff_eq] at h
  rcases h.1 with (hs | hs) | hs
  · exact .inl (by simp [leasing, hs])
  · exact .inl (by simp [leasing, hs])
  · exact .inr (abandoned_lapsed hs)

/-- An event in somebody's hands stays as it is, unless the step is of the session that has it
or the window is over. -/
theorem Works.untouched (h : Works c m s m' t) (ht : Tracked c s m) (hrow : row ∈ s.events)
    (hbusy : row.status = .processing) : row ∈ t.events ∨ (∃ l ∈ m.held, l.row = row.id) ∨
      row.updatedAt + abandonedAfter < s.clock := by
  rcases h.kept hrow with ⟨row', hrow', hid⟩ | ⟨hdoomed, -⟩
  · rcases h.cases row' hrow' with ⟨a, ha, hmoved⟩ | ⟨hnew, -⟩
    · obtain rfl : a = row := Table.eq_of_id ha hrow ((content_id hmoved.content).symm.trans hid)
      cases hmoved with
      | still => exact .inl hrow'
      | taken waits =>
        rcases takeable_free waits with hidle | hlapsed
        · simp [leasing, hbusy] at hidle
        · exact .inr (.inr hlapsed)
      | closed gone => exact .inr (.inr (abandoned_lapsed (Bool.and_eq_true_iff.mp gone).1))
      | read held loaded own same => exact .inr (.inl ⟨_, held, (same.trans own).symm⟩)
      | broke held loaded own same => exact .inr (.inl ⟨_, held, (same.trans own).symm⟩)
    · have := s.events.fresh row hrow
      exact absurd (hnew.trans hid.le) (Nat.not_le.mpr this)
  · have hsettled := (ht.doomed row.id hdoomed).2 row hrow rfl
    exact absurd hbusy (final_not_processing (settled_iff.mp hsettled).2)

/-- A session leaves what is in the hands of others. -/
theorem Works.respects (h : Works c m s m' t) (ht : Tracked c s m) :
    leasing.Respects m s m' t where
  clock := h.clock
  untouched row hrow hbusy := h.untouched ht hrow (beq_iff_eq.mp hbusy)
  takes l hl := by
    cases h with
    | rest | knew | loaded | doomed | ticked => exact .inl ⟨hl, id⟩
    | lost | read | broke => cases hl
    | closed idle =>
      rw [show leasing.held m = none from idle] at hl
      cases hl
    | ingested called once stored =>
      refine .inl ⟨hl, fun ⟨row, hrow, hin⟩ => ⟨row, ?_, hin⟩⟩
      rw [← Table.mem_rows, leasing, stored.rows]
      exact List.mem_append_left _ hrow
    | dropped =>
      refine .inl ⟨hl, fun ⟨row, hrow, hid, hbusy, hstamp⟩ => ⟨row, ?_, hid, hbusy, hstamp⟩⟩
      refine Table.mem_erase.mpr ⟨hrow, ?_⟩
      by_contra hdoomed
      have hsettled := (ht.doomed row.id (by simpa using hdoomed)).2 row hrow rfl
      exact final_not_processing (settled_iff.mp hsettled).2 (beq_iff_eq.mp hbusy)
    | @took _ row found waits =>
      obtain rfl := Option.some.inj hl
      have hmem := Table.mem_modify_of_mem (p := fun e => e.id == row.id && takeable s.clock e)
        (still_taken s.clock) found
      rw [if_pos (by simp [waits])] at hmem
      refine .inr ⟨rfl, ⟨_, hmem, rfl, rfl, rfl⟩, fun a ha hid => ?_⟩
      obtain rfl := Table.eq_of_id ha found hid
      exact takeable_free waits

theorem tracked_empty (c : Call) (s : Store) : Tracked c s Memory.empty := by
  refine ⟨?_, ?_, fun _ _ _ _ => Nat.zero_le _, fun h => absurd rfl h, ?_⟩ <;> simp [Memory.empty]

/-- What a session knows stays so while another one takes a step in time. -/
theorem Tracked.step {c₀ : Call} {m₀ : Memory} (h : Tracked c₀ s m₀) (w : Works c m s m' t)
    (hin : ∀ l ∈ m.held, leasing.InHand s l) : Tracked c₀ t m₀ where
  copy record hr := ⟨(h.copy record hr).1, Nat.lt_of_lt_of_le (h.copy record hr).2 w.next⟩
  agrees record hr row' hrow' hid := by
    rcases w.cases row' hrow' with ⟨row, hrow, hmoved⟩ | ⟨hnew, -⟩
    · rw [hmoved.content]
      exact h.agrees record hr row hrow ((content_id hmoved.content).symm.trans hid)
    · exact absurd (hnew.trans hid.le) (Nat.not_le.mpr (h.copy record hr).2)
  before days size pages hc :=
    (h.before days size pages hc).trans (Nat.sub_le_sub_right w.clock _)
  called := h.called
  doomed id hid := by
    refine ⟨Nat.lt_of_lt_of_le (h.doomed id hid).1 w.next, fun row' hrow' hrow => ?_⟩
    rcases w.cases row' hrow' with ⟨a, ha, hmoved⟩ | ⟨hnew, -⟩
    · have hsettled := (h.doomed id hid).2 a ha ((content_id hmoved.content).symm.trans hrow)
      rw [hmoved.final ha hin (settled_iff.mp hsettled).2]
      exact hsettled
    · exact absurd (hnew.trans hrow.le) (Nat.not_le.mpr (h.doomed id hid).1)

/-- What a session knows after a step of its own in time. -/
theorem Tracked.own (h : Tracked c s m) (w : Works c m s m' t)
    (hin : ∀ l ∈ m.held, leasing.InHand s l) : Tracked c t m' := by
  have hkept := h.step w hin
  cases w with
  | rest | closed | ticked => exact hkept
  | knew | ingested =>
    exact ⟨hkept.copy, hkept.agrees, hkept.before, hkept.called, hkept.doomed⟩
  | took | lost | read | broke =>
    exact ⟨by simp [release], by simp [release], hkept.before, hkept.called, hkept.doomed⟩
  | @loaded l _ record held found same =>
    refine ⟨?_, ?_, hkept.before, hkept.called, hkept.doomed⟩
    · rintro _ ⟨⟩
      exact ⟨inHand_processing (hin l held) found same, s.events.fresh record found⟩
    · rintro _ ⟨⟩ row hrow hid
      rw [Table.eq_of_id hrow found hid]
  | @doomed _ days size pages before called kept past =>
    refine ⟨hkept.copy, hkept.agrees, ?_, fun _ => ⟨days, size, pages, called, kept⟩, ?_⟩
    · rintro days' size' pages' hc
      obtain ⟨rfl, rfl, rfl⟩ := Call.discard.inj (hc.symm.trans called)
      rcases past with rfl | rfl
      · exact h.before _ _ _ hc
      · exact le_rfl
    · intro id hid
      obtain ⟨row, hrow, rfl, hsettled⟩ := Retention.mem_page hid
      refine ⟨s.events.fresh row hrow, fun row' hrow' hsame => ?_⟩
      rw [Table.eq_of_id hrow' hrow hsame]
      exact hsettled
  | dropped =>
    exact ⟨hkept.copy, hkept.agrees, hkept.before, fun h => absurd rfl h, by simp⟩

/-- What holds of the sessions of a pool: what is in hand is, and every session knows what it
loaded. -/
structure Ordered (calls : List Call) (q : Sessions) : Prop where
  orderly : leasing.Orderly q
  tracked : ∀ i m, q.memory i = some m → ∀ c ∈ calls[i]?, Tracked c q.store m

/-- A turn in time, by the call of the session that took it. -/
theorem Ordered.works (h : Ordered calls q) (ok : leasing.InTime q i r)
    {post : ℕ → Memory → Except Fault (Option (ℕ × ℕ) × Memory) → Store → Store → Prop}
    (turn : Pool.Stepped (fun m s m' t => ∃ c ∈ calls[i]?, Works c m s m' t) post q i r) :
    ∃ m, q.memory i = some m ∧ (∀ l ∈ m.held, leasing.InHand q.store l) ∧
      (r.store = q.store ∨ ∃ c ∈ calls[i]?, ∃ m', r.memory i = some m' ∧ Tracked c q.store m ∧
        Works c m q.store m' r.store) := by
  obtain ⟨m, hm, hend⟩ := turn.step
  refine ⟨m, hm, fun l hl => h.orderly.inHand ok hm hl, ?_⟩
  rcases hend with ⟨-, -, -, hsame, -⟩ | ⟨m', hm', c, hc, w⟩
  · exact .inl hsame
  · exact .inr ⟨c, hc, m', hm', h.tracked i m hm c hc, w⟩

theorem Ordered.turn (h : Ordered calls q) (ok : leasing.InTime q i r)
    {post : ℕ → Memory → Except Fault (Option (ℕ × ℕ) × Memory) → Store → Store → Prop}
    (turn : Pool.Stepped (fun m s m' t => ∃ c ∈ calls[i]?, Works c m s m' t) post q i r) :
    Ordered calls r := by
  have hgiven := turn.given (K := fun m s => ∀ c ∈ calls[i]?, Tracked c s m)
    fun m hm c hc => h.tracked i m hm c hc
  refine ⟨h.orderly.turn ok hgiven ?_, fun j k hk c₀ hc₀ => ?_⟩
  · rintro m s m' t ⟨ht, c, hc, w⟩
    exact w.respects (ht c hc)
  · obtain ⟨m, hm, ⟨view, result, hended, hsame, -⟩ | ⟨m', hm', c, hc, w⟩⟩ := turn.step
    · rw [hsame]
      exact h.tracked j k (turn.memory_ended hended hk) c₀ hc₀
    · have hin : ∀ l ∈ m.held, leasing.InHand q.store l := fun l hl => h.orderly.inHand ok hm hl
      by_cases hj : j = i
      · rw [hj, hm'] at hk
        obtain rfl := Option.some.inj hk
        rw [hj] at hc₀
        obtain rfl := Option.mem_unique hc₀ hc
        exact (h.tracked i m hm c₀ hc).own w hin
      · exact (h.tracked j k ((turn.memory_others hj).symm.trans hk) c₀ hc₀).step w hin

theorem memory_start (h : (sessions calls s).memory i = some m) : m = Memory.empty :=
  (Pool.memory_sessions h).elim fun _ h => h.2

theorem ordered_start (calls : List Call) (s : Store) : Ordered calls (sessions calls s) := by
  refine ⟨Leasing.orderly_idle fun i m hm => ?_, fun i m hm c _ => ?_⟩
  · rw [memory_start hm]
    rfl
  · rw [memory_start hm]
    exact tracked_empty c s

/-- The sessions of a run in time are in order. -/
theorem run_ordered (run : Pool.Run leasing.InTime (sessions calls s) trace q) : Ordered calls q :=
  run.invariant (stepping_serve calls s) (ordered_start calls s) fun _ _ _ ok turn h => h.turn ok turn

end FastKit.Events
