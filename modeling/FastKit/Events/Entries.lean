import FastKit.Events.Passes

/-! # What the passes record

In a run whose sessions are in time, the log gets one entry of every event that was read, in the
order of the turns that read them, and retention drops only what nothing acts on again.
-/

namespace FastKit.Events
open Transaction Transaction.Program

variable {c : Call} {m m' : Memory} {s t u : Store} {moment : ℕ} {row row' record e : AppEvent}
  {q r : Sessions} {i : ℕ} {calls : List Call} {trace : List (Turn Store)}
  {read : List AppEvent}

/-- An event that was dropped, and whose id no later one gets. -/
def Gone (id : ℕ) (s : Store) : Prop := id < s.events.next ∧ ∀ row ∈ s.events, row.id ≠ id

theorem entry_eq (h : row.content = record.content) : entry row = entry record := by
  simp only [AppEvent.content, Prod.mk.injEq] at h
  obtain ⟨-, htenant, huser, -, hname, hparams, -⟩ := h
  rw [entry, entry, hname]
  refine congrArg (Option.map · _) (funext fun category => ?_)
  simp only [entryOf, htenant, huser, hname, hparams]

theorem Gone.later (h : Gone row.id s) (w : Works c m s m' t) : Gone row.id t := by
  refine ⟨Nat.lt_of_lt_of_le h.1 w.next, fun row' hrow' hid => ?_⟩
  rcases w.cases row' hrow' with ⟨a, ha, hmoved⟩ | ⟨hnew, -⟩
  · exact h.2 a ha ((content_id hmoved.content).symm.trans hid)
  · exact absurd (hnew.trans hid.le) (Nat.not_le.mpr h.1)

/-- An event nothing acts on again is there as it was, or was dropped. -/
theorem final_later (w : Works c m s m' t) (hin : ∀ l ∈ m.held, leasing.InHand s l)
    (hf : final row = true) (h : row ∈ s.events ∨ Gone row.id s) : row ∈ t.events ∨ Gone row.id t := by
  rcases h with hrow | hgone
  · rcases w.stays hin hrow hf with hstays | ⟨-, hnot⟩
    · exact .inl hstays
    · exact .inr ⟨Nat.lt_of_lt_of_le (s.events.fresh row hrow) w.next, hnot⟩
  · exact .inr (hgone.later w)

/-- What a pass writes over an event that is in its hands is what the pass says of it. -/
theorem write_status {now : AppEvent} (hrecord : record.status = .processing)
    (hnow : now.status ≠ .processing) : (AppEvent.write record now moment row).status = now.status := by
  simp only [AppEvent.write, changed]
  rw [if_neg (by rw [hrecord]; exact hnow)]

/-- A rewrite that makes no event a processed one. -/
theorem processed_modify {p : AppEvent → Bool} {f : AppEvent → AppEvent} (h : Still f)
    (hf : ∀ a ∈ s.events, p a = true → (f a).status ≠ .processed) (he : e ∈ s.events.modify p f h)
    (hp : e.status = .processed) : e ∈ s.events := by
  obtain ⟨a, ha, rfl⟩ := (Table.mem_modify h).mp he
  split_ifs at hp ⊢ with hpa
  · exact absurd hp (hf a ha hpa)
  · exact ha

/-- A step of a session in time reads no event, or reads the one it has in hand. -/
theorem Works.reads (w : Works c m s m' t) (ht : Tracked c s m)
    (hin : ∀ l ∈ m.held, leasing.InHand s l) :
    (t.logs = s.logs ∧ ∀ e ∈ t.events, e.status = .processed → e ∈ s.events) ∨
    ∃ row ∈ s.events, ∃ e ∈ t.events, ∃ line, row.status = .processing ∧ e.id = row.id ∧
      e.status = .processed ∧ entry e = some line ∧ t.logs = s.logs ++ [line] ∧
      ∀ e' ∈ t.events, e'.status = .processed → e' ∈ s.events ∨ e' = e := by
  cases w with
  | rest | knew | loaded | lost | doomed | ticked => exact .inl ⟨rfl, fun e he _ => he⟩
  | ingested called once stored =>
    refine .inl ⟨by rw [stored.kept], fun e he hp => ?_⟩
    rw [← Table.mem_rows, stored.rows, List.mem_append] at he
    refine he.resolve_right fun hnew => ?_
    obtain ⟨event, -, id, -, rfl⟩ := stored.pending e hnew
    cases hp
  | took => exact .inl ⟨rfl, fun e he =>
    processed_modify (still_taken _) (fun a _ _ => by simp [taken]) he⟩
  | closed =>
    exact .inl ⟨rfl, fun e he =>
      processed_modify (still_closedExhausted _) (fun a _ _ => by simp [closedExhausted]) he⟩
  | dropped => exact .inl ⟨rfl, fun e he _ => (Table.mem_erase.mp he).1⟩
  | @broke l _ record row error held loaded own found same =>
    refine .inl ⟨rfl, fun e he => processed_modify (still_write _ _ _) (fun a _ _ => ?_) he⟩
    rw [write_status (ht.copy _ loaded).1 (by simp [brokenEvent])]
    simp [brokenEvent]
  | @read l _ record row held loaded own found same =>
    have hrecord := (ht.copy _ loaded).1
    cases hcategory : eventCategories.lookup record.name with
    | none =>
      refine .inl ⟨by simp [entry, hcategory], fun e he => processed_modify (still_write _ _ _) (fun a _ _ => ?_) he⟩
      rw [write_status hrecord (by simp [settledEvent])]
      simp [settledEvent]
    | some category =>
      -- the row that is read says what the copy of it said
      have hmem := Table.mem_modify_of_mem (p := (·.id == record.id)) (still_write record
        (settledEvent true s.clock record) s.clock) found
      rw [if_pos (beq_iff_eq.mpr same)] at hmem
      have hagrees := ht.agrees record loaded row found same
      have hline : entry record = some (entryOf category record) := by rw [entry, hcategory]; rfl
      refine .inr ⟨row, found, _, hmem, entryOf category record, ?_, rfl, ?_, ?_, ?_, ?_⟩
      · exact inHand_processing (hin l held) found (same.trans own)
      · exact write_status hrecord (by simp [settledEvent])
      · exact (entry_eq hagrees).trans hline
      · rw [hline]
        rfl
      · intro e' he' hp
        obtain ⟨a, ha, rfl⟩ := (Table.mem_modify (still_write _ _ _)).mp he'
        split_ifs with hid
        · obtain rfl := Table.eq_of_id ha found ((beq_iff_eq.mp hid).trans same.symm)
          exact .inr rfl
        · exact .inl ha

/-- The events a turn closed as processed, as it closed them. -/
def readIn (s t : Store) : List AppEvent :=
  t.events.select (fun e => e.status == .processed &&
    !(s.events.get e.id).any (·.status == .processed))

/-- The events the turns of a run read, in the order of the turns. -/
def readBy (trace : List (Turn Store)) : List AppEvent :=
  trace.flatMap (fun turn => readIn turn.before turn.after)

theorem readIn_self : readIn s s = [] := by
  refine Table.select_eq_nil fun e he => ?_
  have hget : s.events.get e.id = some e := Table.get_of_mem he
  simp [hget]

/-- A step of a session in time closes no event as processed and logs nothing, or closes the one
it has in hand and logs what it says. -/
theorem Works.readIn (w : Works c m s m' t) (ht : Tracked c s m)
    (hin : ∀ l ∈ m.held, leasing.InHand s l) :
    (Events.readIn s t = [] ∧ t.logs = s.logs ∧
      ∀ e ∈ t.events, e.status = .processed → e ∈ s.events) ∨
    ∃ row ∈ s.events, ∃ e ∈ t.events, ∃ line, Events.readIn s t = [e] ∧ row.status = .processing ∧
      e.id = row.id ∧ e.status = .processed ∧ entry e = some line ∧ t.logs = s.logs ++ [line] ∧
      ∀ e' ∈ t.events, e'.status = .processed → e' ∈ s.events ∨ e' = e := by
  have hold : ∀ e ∈ s.events, e.status = .processed →
      (s.events.get e.id).any (·.status == .processed) = true := fun e he hp => by
    rw [show s.events.get e.id = some e from Table.get_of_mem he]
    simp [hp]
  rcases w.reads ht hin with ⟨hlogs, hsame⟩ | ⟨row, hrow, e, he, line, hbusy, hid, hp, hline, hlogs, hone⟩
  · refine .inl ⟨Table.select_eq_nil fun e he => ?_, hlogs, hsame⟩
    by_cases hp : e.status = .processed
    · simp [hold e (hsame e he hp) hp]
    · simp [hp]
  · refine .inr ⟨row, hrow, e, he, line, ?_, hbusy, hid, hp, hline, hlogs, hone⟩
    have hget : s.events.get e.id = some row := hid ▸ Table.get_of_mem hrow
    refine Table.select_eq_singleton he (by simp [hp, hget, hbusy]) fun a ha hread => ?_
    rw [Bool.and_eq_true, beq_iff_eq] at hread
    refine (hone a ha hread.1).resolve_left fun hstood => ?_
    rw [hold a hstood hread.1] at hread
    cases hread.2

/-- What a run recorded: one line of every event it read, each of which is there as it was closed
or was dropped. -/
structure Recorded (s : Store) (read : List AppEvent) (t : Store) : Prop where
  once : (read.map (·.id)).Nodup
  logs : t.logs.map some = s.logs.map some ++ read.map entry
  closed : ∀ e ∈ read, e.status = .processed ∧ (e ∈ t.events ∨ Gone e.id t)
  start : ∀ row ∈ s.events, row.status = .processed →
    (row ∈ t.events ∨ Gone row.id t) ∧ ∀ e ∈ read, e.id ≠ row.id
  complete : ∀ e ∈ t.events, e.status = .processed → e ∈ s.events ∨ e ∈ read

theorem final_processed (h : e.status = .processed) : final e = true := by simp [final, h]

/-- A step in time records what it reads. -/
theorem Recorded.step (h : Recorded s read t) (w : Works c m t m' u) (ht : Tracked c t m)
    (hin : ∀ l ∈ m.held, leasing.InHand t l) : Recorded s (read ++ readIn t u) u := by
  have hclosed : ∀ e ∈ read, e.status = .processed ∧ (e ∈ u.events ∨ Gone e.id u) := fun e he =>
    ⟨(h.closed e he).1, final_later w hin (final_processed (h.closed e he).1) (h.closed e he).2⟩
  have hstart : ∀ row ∈ s.events, row.status = .processed → row ∈ u.events ∨ Gone row.id u :=
    fun row hrow hp => final_later w hin (final_processed hp) (h.start row hrow hp).1
  rcases w.readIn ht hin with ⟨hnone, hlogs, hsame⟩ |
    ⟨row, hrow, e, he, line, hread, hbusy, hid, hp, hline, hlogs, hone⟩
  · rw [hnone, List.append_nil]
    exact ⟨h.once, hlogs ▸ h.logs, hclosed,
      fun row hrow hp => ⟨hstart row hrow hp, (h.start row hrow hp).2⟩,
      fun e he hp => h.complete e (hsame e he hp) hp⟩
  · rw [hread]
    -- the row in hand is none of those that were closed
    have hother : ∀ a : AppEvent, a.status = .processed → (a ∈ t.events ∨ Gone a.id t) →
        a.id ≠ e.id := by
      rintro a hap (ha | hgone) heq
      · obtain rfl := Table.eq_of_id ha hrow (heq.trans hid)
        rw [hap] at hbusy
        cases hbusy
      · exact hgone.2 row hrow (hid.symm.trans heq.symm)
    refine ⟨?_, ?_, ?_, ?_, ?_⟩
    · rw [List.map_append]
      refine List.nodup_append.mpr ⟨h.once, List.nodup_singleton _, fun a ha b hb => ?_⟩
      obtain ⟨x, hx, rfl⟩ := List.mem_map.mp ha
      rw [List.mem_singleton.mp hb]
      exact hother x (h.closed x hx).1 (h.closed x hx).2
    · rw [hlogs, List.map_append, List.map_append, h.logs, List.append_assoc]
      exact congrArg (fun x => s.logs.map some ++ (read.map entry ++ [x])) hline.symm
    · intro x hx
      rcases List.mem_append.mp hx with hx | hx
      · exact hclosed x hx
      · rw [List.mem_singleton.mp hx]
        exact ⟨hp, .inl he⟩
    · intro a ha hap
      refine ⟨hstart a ha hap, fun x hx => ?_⟩
      rcases List.mem_append.mp hx with hx | hx
      · exact (h.start a ha hap).2 x hx
      · rw [List.mem_singleton.mp hx]
        exact (hother a hap (h.start a ha hap).1).symm
    · intro x hx hxp
      rw [List.mem_append, List.mem_singleton]
      rcases hone x hx hxp with hx | rfl
      · exact (h.complete x hx hxp).imp_right .inl
      · exact .inr (.inr rfl)

theorem recorded_start (s : Store) : Recorded s [] s := by
  refine ⟨List.nodup_nil, (List.append_nil _).symm, by simp, fun row hrow _ => ?_, fun e he _ => .inl he⟩
  exact ⟨.inl hrow, by simp⟩

theorem run_recorded (run : Pool.Run leasing.InTime (sessions calls s) trace q) :
    Recorded s (readBy trace) q.store := by
  induction run with
  | start => exact recorded_start s
  | @turn trace q r i past taken ok ih =>
    rw [readBy, List.flatMap_append, List.flatMap_singleton]
    obtain ⟨m, -, hin, hsame | ⟨c, -, m', -, ht, w⟩⟩ := (run_ordered past).works ok
      (past.stepped (stepping_serve calls s) taken)
    · rw [hsame, readIn_self, List.append_nil]
      exact ih
    · exact ih.step w ht hin

/-- In every run whose sessions are in time, the log gets one line of each event that a turn read,
in the order of the turns, and no other: no event is read twice, a processed event stays as it is
until it is dropped, and what stands processed at the end was so at the start or was read. -/
theorem events_recorded_once (run : Pool.Run leasing.InTime (sessions calls s) trace q) :
    ((readBy trace).map (·.id)).Nodup ∧
      q.store.logs.map some = s.logs.map some ++ (readBy trace).map entry ∧
      (∀ e ∈ readBy trace, e.status = .processed ∧ (e ∈ q.store.events ∨ Gone e.id q.store)) ∧
      (∀ row ∈ s.events, row.status = .processed →
        (row ∈ q.store.events ∨ Gone row.id q.store) ∧ ∀ e ∈ readBy trace, e.id ≠ row.id) ∧
      ∀ e ∈ q.store.events, e.status = .processed → e ∈ s.events ∨ e ∈ readBy trace := by
  have h := run_recorded run
  exact ⟨h.once, h.logs, h.closed, h.start, h.complete⟩

/-- A pass reads a purchase while another one is on its way to it. -/
theorem events_recorded_once_purchase : ∃ trace q, Pool.Run leasing.InTime
    (sessions [.processPending (fun _ => none), .processPending (fun _ => none)] (App.store .pending 0)) trace q ∧
    q.store.logs.length = 1 ∧ q.store.logs.map some = [] ++ (readBy trace).map entry := by
  obtain ⟨trace, q, run, hq⟩ := Pool.exists_run leasing.InTime
    (sessions [.processPending (fun _ => none), .processPending (fun _ => none)] (App.store .pending 0))
    [0, 1, 0, 1, 0, 0, 1] (fun q => q.store.logs.length = 1) (by decide +kernel)
  exact ⟨trace, q, run, hq, (events_recorded_once run).2.1⟩

/-- Retention drops an event only where nothing acts on it again. -/
theorem Works.drops (w : Works c m s m' t) (ht : Tracked c s m) (hrow : row ∈ s.events)
    (hgone : ∀ row' ∈ t.events, row'.id ≠ row.id) : ∃ days size pages,
      c = .discard days size pages ∧ 0 < days ∧ final row = true ∧
      row.createdAt < s.clock - days * Calendar.day := by
  rcases w.kept hrow with ⟨row', hrow', hid⟩ | ⟨hdoomed, -⟩
  · exact absurd hid (hgone row' hrow')
  · obtain ⟨days, size, pages, hc, hdays⟩ := ht.called (List.ne_nil_of_mem hdoomed)
    obtain ⟨hold, hfinal⟩ := settled_iff.mp ((ht.doomed row.id hdoomed).2 row hrow rfl)
    exact ⟨days, size, pages, hc, hdays, hfinal,
      Nat.lt_of_lt_of_le hold (ht.before days size pages hc)⟩

/-- In every run whose sessions are in time, an event leaves the table only by a retention that
has a window, only once nothing acts on it again, and only where it is older than the window as it
is dropped. -/
theorem events_dropped_final (run : Pool.Run leasing.InTime (sessions calls s) trace q) :
    ∀ turn ∈ trace, ∀ row ∈ turn.before.events, (∀ row' ∈ turn.after.events, row'.id ≠ row.id) →
      ∃ days size pages, calls[turn.who]? = some (.discard days size pages) ∧ 0 < days ∧
        final row = true ∧ row.createdAt < turn.before.clock - days * Calendar.day := by
  induction run with
  | start => simp
  | @turn trace q r i past taken ok ih =>
    intro turn hturn row hrow hgone
    rcases List.mem_append.mp hturn with hpast | hlast
    · exact ih turn hpast row hrow hgone
    · obtain rfl := List.mem_singleton.mp hlast
      obtain ⟨m, -, -, hsame | ⟨c, hc, m', -, ht, w⟩⟩ := (run_ordered past).works ok
        (past.stepped (stepping_serve calls s) taken)
      · exact absurd rfl (hgone row (hsame ▸ hrow))
      · obtain ⟨days, size, pages, rfl, h⟩ := w.drops ht hrow hgone
        exact ⟨days, size, pages, hc, h⟩

/-- Retention drops a purchase that was read two days ago. -/
theorem events_dropped_final_purchase : ∃ trace q, Pool.Run leasing.InTime
    (sessions [.discard 1 10 2] (App.store .processed (2 * Calendar.day))) trace q ∧
    ∀ turn ∈ trace, ∀ row ∈ turn.before.events, (∀ row' ∈ turn.after.events, row'.id ≠ row.id) →
      final row = true := by
  obtain ⟨trace, q, run, -⟩ := Pool.exists_run leasing.InTime
    (sessions [.discard 1 10 2] (App.store .processed (2 * Calendar.day))) [0, 0, 0]
    (fun q => ∀ row ∈ q.store.events, False) (by decide +kernel)
  refine ⟨trace, q, run, fun turn hturn row hrow hgone => ?_⟩
  obtain ⟨-, -, -, -, -, hfinal, -⟩ := events_dropped_final run turn hturn row hrow hgone
  exact hfinal

end FastKit.Events
