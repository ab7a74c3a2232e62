import FastKit.Events.Steps

/-! # A batch is stored once

A session that is given a batch writes its rows in one turn, and answers how many of its uuids
they are. The others it found stored, in that turn or in the one it started with.
-/

namespace FastKit.Events
open Transaction Transaction.Program

variable {c : Call} {m m' : Memory} {s t : Store} {q r : Sessions} {i : ℕ} {calls : List Call}
  {trace past : List (Turn Store)} {brand user : Option ℕ} {events : List Reported}
  {written : List AppEvent} {ok : Sessions → ℕ → Sessions → Prop}

/-- What a batch that was reported left in a turn of its session, given the turns before. -/
structure Reports (brand user : Option ℕ) (events : List Reported) (written : List AppEvent) (i : ℕ)
    (past : List (Turn Store)) (turn : Turn Store) : Prop where
  who : turn.who = i
  rows : turn.after.events.rows = turn.before.events.rows ++ written
  last : ∀ row ∈ written, stored row.uuid turn.before = false ∧
    ∃ event, events.reverse.find? (·.uuid == row.uuid) = some event ∧
      row = pendingEvent brand user turn.before.clock event row.id
  rest : ∀ event ∈ events, (∃ row ∈ written, row.uuid = event.uuid) ∨
    stored event.uuid turn.before = true ∨
    ∃ turn' ∈ past, turn'.who = i ∧ stored event.uuid turn'.before = true

/-- The turns of a session, none of which handed out an id. -/
def Idle (i : ℕ) (trace : List (Turn Store)) : Prop :=
  ∀ turn ∈ trace, turn.who = i → turn.after.events.next = turn.before.events.next

/-- The rows were written in one turn of the session, and no other turn of it wrote rows. -/
def Stored (brand user : Option ℕ) (events : List Reported) (written : List AppEvent) (i : ℕ)
    (trace : List (Turn Store)) : Prop :=
  ∃ past turn rest, trace = past ++ turn :: rest ∧ Idle i past ∧ Idle i rest ∧
    Reports brand user events written i past turn

theorem Idle.append {turn : Turn Store} (h : Idle i trace)
    (hturn : turn.who = i → turn.after.events.next = turn.before.events.next) :
    Idle i (trace ++ [turn]) := by
  intro turn' h'
  rcases List.mem_append.mp h' with h' | h'
  · exact h turn' h'
  · exact List.mem_singleton.mp h' ▸ hturn

theorem Stored.append {turn : Turn Store} (h : Stored brand user events written i trace)
    (hturn : turn.who = i → turn.after.events.next = turn.before.events.next) :
    Stored brand user events written i (trace ++ [turn]) := by
  obtain ⟨past, turn₀, rest, rfl, hpast, hrest, hreports⟩ := h
  exact ⟨past, turn₀, rest ++ [turn], by simp, hpast, hrest.append hturn, hreports⟩

/-- What a step does to what a session knows of its batch. -/
theorem Works.batch (w : Works c m s m' t) :
    (m'.written = m.written ∧ t.events.next = s.events.next ∧
      (m'.known = m.known ∨ ∃ uuids, m'.known = knownUuids uuids s)) ∨
    ∃ brand user events written, c = .ingest brand user events ∧ m.written = none ∧
      m'.written = some written ∧ m'.known = m.known ∧
      Ingested brand user m.known (incoming events) written s t := by
  cases w with
  | rest | took | closed | loaded | lost | read | broke | doomed | dropped | ticked =>
    exact .inl ⟨rfl, rfl, .inl rfl⟩
  | knew uuids => exact .inl ⟨rfl, rfl, .inr ⟨uuids, rfl⟩⟩
  | ingested called once stored => exact .inr ⟨_, _, _, _, called, once, rfl, rfl, stored⟩

theorem mem_knownUuids {uuids : List String} {uuid : String} (h : uuid ∈ knownUuids uuids s) :
    stored uuid s = true := by
  obtain ⟨row, hrow, rfl⟩ := List.mem_map.mp h
  exact stored_eq_true.mpr ⟨row, (Table.mem_select.mp hrow).1, rfl⟩

/-- The segment that stores a batch, by the uuids the session knew of it. -/
theorem Ingested.reports (h : Ingested brand user m.known (incoming events) written s t)
    (known : ∀ uuid ∈ m.known, ∃ turn ∈ past, turn.who = i ∧ stored uuid turn.before = true) :
    Reports brand user events written i past ⟨i, s, t⟩ := by
  have hnew : ∀ uuid, uuid ∈ written.map (·.uuid) ↔
      uuid ∈ events.map (·.uuid) ∧ uuid ∉ m.known ∧ stored uuid s = false := by
    intro uuid
    rw [h.new, List.mem_filter, mem_uuids_incoming]
    simp
  refine ⟨rfl, h.rows, fun row hrow => ?_, fun event hevent => ?_⟩
  · refine ⟨((hnew row.uuid).mp (List.mem_map_of_mem hrow)).2.2, ?_⟩
    obtain ⟨event, hevent, id, -, rfl⟩ := h.pending row hrow
    exact ⟨event, last_of_incoming hevent, rfl⟩
  · by_cases hknown : event.uuid ∈ m.known
    · exact .inr (.inr (known _ hknown))
    cases hstored : stored event.uuid s with
    | true => exact .inr (.inl rfl)
    | false =>
      have hmem := (hnew event.uuid).mpr ⟨List.mem_map_of_mem hevent, hknown, hstored⟩
      obtain ⟨row, hrow, huuid⟩ := List.mem_map.mp hmem
      exact .inl ⟨row, hrow, huuid⟩

/-- What a session that is given a batch did so far. -/
structure Batch (brand user : Option ℕ) (events : List Reported) (i : ℕ) (trace : List (Turn Store))
    (m : Memory) : Prop where
  known : ∀ uuid ∈ m.known, ∃ turn ∈ trace, turn.who = i ∧ stored uuid turn.before = true
  waits : m.written = none → Idle i trace
  wrote : ∀ written, m.written = some written → Stored brand user events written i trace

/-- How a session that was given a batch ended. -/
def Counted (brand user : Option ℕ) (events : List Reported) (i : ℕ) (trace : List (Turn Store))
    (result : Except Fault (Option (ℕ × ℕ) × Memory)) : Prop :=
  ∃ written duplicated m, result = .ok (some (written.length, duplicated), m) ∧
    written.length + duplicated = (events.map (·.uuid)).dedup.length ∧
    Stored brand user events written i trace

theorem Batch.append {turn : Turn Store} (h : Batch brand user events i trace m)
    (hturn : turn.who = i → turn.after.events.next = turn.before.events.next) :
    Batch brand user events i (trace ++ [turn]) m where
  known uuid huuid := by
    obtain ⟨turn', hmem, h'⟩ := h.known uuid huuid
    exact ⟨turn', List.mem_append_left _ hmem, h'⟩
  waits hm := (h.waits hm).append hturn
  wrote written hm := (h.wrote written hm).append hturn

/-- A step of the session with its batch. -/
theorem Batch.step (h : Batch brand user events i trace m)
    (w : Works (.ingest brand user events) m s m' t) :
    Batch brand user events i (trace ++ [⟨i, s, t⟩]) m' := by
  rcases w.batch with ⟨hwritten, hnext, hknown⟩ | ⟨_, _, _, written, hc, hwaits, hwritten, hknown, hstored⟩
  · have hkept : Batch brand user events i (trace ++ [⟨i, s, t⟩]) m := h.append fun _ => hnext
    refine ⟨fun uuid huuid => ?_, fun hm => hkept.waits (hwritten ▸ hm),
      fun written hm => hkept.wrote written (hwritten ▸ hm)⟩
    rcases hknown with hsame | ⟨uuids, hread⟩
    · exact hkept.known uuid (hsame ▸ huuid)
    · rw [hread] at huuid
      exact ⟨_, List.mem_append_right _ (List.mem_singleton_self _), rfl, mem_knownUuids huuid⟩
  · obtain ⟨rfl, rfl, rfl⟩ := Call.ingest.inj hc
    refine ⟨fun uuid huuid => ?_, fun hm => ?_, fun written' hm => ?_⟩
    · obtain ⟨turn, hmem, h'⟩ := h.known uuid (hknown ▸ huuid)
      exact ⟨turn, List.mem_append_left _ hmem, h'⟩
    · rw [hwritten] at hm
      cases hm
    · rw [hwritten] at hm
      obtain rfl := Option.some.inj hm
      exact ⟨trace, _, [], rfl, h.waits hwaits, by simp [Idle], hstored.reports h.known⟩

/-- Every run, by what the session of one batch did of it. -/
theorem run_batch (run : Pool.Run ok (sessions calls s) trace q)
    (hc : calls[i]? = some (.ingest brand user events)) :
    (∀ m, q.memory i = some m → Batch brand user events i trace m) ∧
      ∀ view result, q.sessions[i]? = some (.done view result) →
        Counted brand user events i trace result := by
  induction run with
  | start =>
    refine ⟨fun m hm => ?_, fun view result hdone => ?_⟩
    · obtain ⟨-, -, rfl⟩ := Pool.memory_sessions hm
      exact ⟨by simp [Memory.empty], fun _ => by simp [Idle], by simp [Memory.empty]⟩
    · simp [sessions, session, hc] at hdone
  | @turn trace q r j past taken holds ih =>
    have turn := past.stepped (stepping_serve calls s) taken
    by_cases hj : j = i
    · subst hj
      obtain ⟨m, hm, ⟨view, result, hdone, hsame, hend⟩ | ⟨m', hm', c, hc', w⟩⟩ := turn.step
      · have hidle : j = j → r.store.events.next = q.store.events.next := fun _ => hsame ▸ rfl
        refine ⟨fun k hk => ?_, fun view' result' hdone' => ?_⟩
        · rw [Pool.memory, hdone] at hk
          cases hk
        · rw [hdone] at hdone'
          obtain ⟨-, rfl⟩ := Outcome.done.inj (Option.some.inj hdone')
          obtain ⟨c, hc', hanswers⟩ := hend
          obtain rfl := Option.some.inj (hc.symm.trans hc')
          cases result with
          | error e => exact hanswers.elim
          | ok p =>
            obtain ⟨hm', written, duplicated, hwritten, hcounted, hsum⟩ := hanswers
            exact ⟨written, duplicated, p.2, by rw [← hcounted], hsum,
              ((ih.1 m hm).wrote written hwritten).append hidle⟩
      · obtain rfl := Option.some.inj (hc.symm.trans hc')
        refine ⟨fun k hk => ?_, fun view result hdone => ?_⟩
        · rw [hm'] at hk
          exact Option.some.inj hk ▸ (ih.1 m hm).step w
        · rw [Pool.memory, hdone] at hm'
          cases hm'
    · have hnot : j = i → r.store.events.next = q.store.events.next := fun h => absurd h hj
      refine ⟨fun m hm => ?_, fun view result hdone => ?_⟩
      · exact (ih.1 m ((turn.memory_others (Ne.symm hj)).symm.trans hm)).append hnot
      · rw [turn.others i (Ne.symm hj)] at hdone
        obtain ⟨written, duplicated, m, h, hsum, hstored⟩ := ih.2 view result hdone
        exact ⟨written, duplicated, m, h, hsum, hstored.append hnot⟩

/-- However the sessions take turns, a batch that ended was stored once: its answer counts the
rows one turn of its session wrote, each the last report of an uuid that was not stored, and the
other uuids of the batch; no other turn of the session wrote a row, and what it did not write was
stored in that turn or in an earlier turn of the session. -/
theorem batch_stored_once (run : Pool.Run ok (sessions calls s) trace q)
    (hc : calls[i]? = some (.ingest brand user events)) {view : Store}
    {result : Except Fault (Option (ℕ × ℕ) × Memory)}
    (hdone : q.sessions[i]? = some (.done view result)) :
    ∃ written duplicated m, result = .ok (some (written.length, duplicated), m) ∧
      written.length + duplicated = (events.map (·.uuid)).dedup.length ∧
      ∃ past turn rest, trace = past ++ turn :: rest ∧ turn.who = i ∧ Idle i past ∧ Idle i rest ∧
        turn.after.events.rows = turn.before.events.rows ++ written ∧
        (∀ row ∈ written, stored row.uuid turn.before = false ∧
          ∃ event, events.reverse.find? (·.uuid == row.uuid) = some event ∧
            row = pendingEvent brand user turn.before.clock event row.id) ∧
        ∀ event ∈ events, (∃ row ∈ written, row.uuid = event.uuid) ∨
          stored event.uuid turn.before = true ∨
          ∃ turn' ∈ past, turn'.who = i ∧ stored event.uuid turn'.before = true := by
  obtain ⟨written, duplicated, m, hresult, hsum, past, turn, rest, htrace, hpast, hrest, h⟩ :=
    (run_batch run hc).2 view result hdone
  exact ⟨written, duplicated, m, hresult, hsum, past, turn, rest, htrace, h.who, hpast, hrest,
    h.rows, h.last, h.rest⟩

/-- A batch that says one thing twice, and one that is stored. -/
theorem batch_stored_once_replayed : ∃ trace q view result, Pool.Run (fun _ _ _ => True)
    (sessions [.ingest none none [⟨"view", "content-viewed", .null, 0⟩, ⟨"purchase", "product-purchased", .null, 0⟩,
      ⟨"view", "content-viewed", .null, 1⟩]] (App.store .pending 0)) trace q ∧
    q.sessions[0]? = some (.done view result) ∧ q.store.events.rows.length = 2 ∧
    ∃ (written : List AppEvent) (duplicated : ℕ) (m : Memory),
      result = .ok (some (written.length, duplicated), m) ∧ written.length + duplicated = 2 := by
  obtain ⟨trace, q, run, hrows, hend⟩ := Pool.exists_run (fun _ _ _ => True)
    (sessions [.ingest none none [⟨"view", "content-viewed", .null, 0⟩, ⟨"purchase", "product-purchased", .null, 0⟩,
      ⟨"view", "content-viewed", .null, 1⟩]] (App.store .pending 0)) [0, 0, 0]
    (fun q => q.store.events.rows.length = 2 ∧ (q.sessions[0]?.bind Outcome.result?).isSome = true)
    (by decide +kernel)
  obtain ⟨result, hresult⟩ := Option.isSome_iff_exists.mp hend
  obtain ⟨o, ho, hdone⟩ := Option.bind_eq_some_iff.mp hresult
  cases o with
  | pause => cases hdone
  | done view result =>
    obtain ⟨written, duplicated, m, h, hsum, -⟩ := batch_stored_once run rfl ho
    exact ⟨trace, q, view, result, run, ho, hrows, written, duplicated, m, h, hsum.trans (by decide)⟩

end FastKit.Events
