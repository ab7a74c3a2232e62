import FastKit.Services.Events
import Mathlib.Data.List.Dedup
import Mathlib.Data.List.Induction

/-! # What a session does with the events

Every segment of a session of the event service is one of a dozen steps, said by what the session
had in hand as the segment started.
-/

namespace FastKit.Events
open Transaction Transaction.Program

variable {brand user : Option ℕ} {known : List String} {events rest : List Reported}
  {written : List AppEvent} {event : Reported} {c : Call} {g m : Memory} {b v : Store}

def stored (uuid : String) (s : Store) : Bool := (s.events.find (·.uuid == uuid)).isSome

/-- The entry an event is recorded by, where this side knows what to do with it. -/
def entry (e : AppEvent) : Option LogEntry := (eventCategories.lookup e.name).map (entryOf · e)

/-- A batch stored: the rows of the events that were neither known nor there, in the order of
the batch, and nothing else. -/
structure Ingested (brand user : Option ℕ) (known : List String) (events : List Reported)
    (written : List AppEvent) (s t : Store) : Prop where
  rows : t.events.rows = s.events.rows ++ written
  kept : t = { s with events := t.events }
  new : written.map (·.uuid) =
    (events.map (·.uuid)).filter (fun uuid => !known.contains uuid && !stored uuid s)
  pending : ∀ row ∈ written, ∃ event ∈ events, ∃ id, s.events.next ≤ id ∧
    row = pendingEvent brand user s.clock event id
  next : s.events.next ≤ t.events.next

/-- What a segment of a session of the call does, by what the session had in hand. -/
inductive Works (c : Call) : Memory → Store → Memory → Store → Prop where
  | rest (m : Memory) (s : Store) : Works c m s m s
  | knew {m : Memory} {s : Store} (uuids : List String) :
      Works c m s { m with known := knownUuids uuids s } s
  | ingested {m : Memory} {s t : Store} {brand user : Option ℕ} {events : List Reported}
      {written : List AppEvent} (called : c = .ingest brand user events) (once : m.written = none)
      (stored : Ingested brand user m.known (incoming events) written s t) :
      Works c m s { m with written := some written } t
  | took {m : Memory} {s : Store} {row : AppEvent} (found : row ∈ s.events)
      (waits : takeable s.clock row = true) :
      Works c m s { m with held := some ⟨row.id, s.clock⟩, record := none } { s with
        events := s.events.modify (fun e => e.id == row.id && takeable s.clock e) (taken s.clock)
          (still_taken _) }
  | closed {m : Memory} {s : Store} (idle : m.held = none) : Works c m s m { s with
      events := s.events.modify (exhausted s.clock) (closedExhausted s.clock)
        (still_closedExhausted _) }
  | loaded {m : Memory} {l : Lease} {s : Store} {record : AppEvent} (held : m.held = some l)
      (found : record ∈ s.events) (same : record.id = l.row) :
      Works c m s { m with record := some record } s
  | lost {m : Memory} {s : Store} : Works c m s (release m) s
  | read {m : Memory} {l : Lease} {s : Store} {record row : AppEvent} (held : m.held = some l)
      (loaded : m.record = some record) (own : record.id = l.row) (found : row ∈ s.events)
      (same : row.id = record.id) :
      Works c m s (release m) { s with
        events := s.events.modify (·.id == record.id) (AppEvent.write record (settledEvent
          (eventCategories.lookup record.name).isSome s.clock record) s.clock) (still_write _ _ _)
        logs := s.logs ++ (entry record).toList }
  | broke {m : Memory} {l : Lease} {s : Store} {record row : AppEvent} {error : Fault}
      (held : m.held = some l) (loaded : m.record = some record) (own : record.id = l.row)
      (found : row ∈ s.events) (same : row.id = record.id) :
      Works c m s (release m) { s with
        events := s.events.modify (·.id == record.id) (AppEvent.write record
          (brokenEvent error s.clock record) s.clock) (still_write _ _ _) }
  | doomed {m : Memory} {s : Store} {days size pages before : ℕ} (called : c = .discard days size pages)
      (kept : 0 < days) (past : m.before = before ∨ before = s.clock - days * Calendar.day) :
      Works c m s (note before (Retention.page (settled before) size s.events) m) s
  | dropped {m : Memory} {s : Store} : Works c m s { m with doomed := [] } { s with
      events := s.events.erase (fun e => m.doomed.contains e.id) }
  | ticked {m : Memory} {s : Store} (duration : ℕ) :
      Works c m s m { s with clock := s.clock + duration }

theorem stored_eq_true {uuid : String} {s : Store} :
    stored uuid s = true ↔ ∃ row ∈ s.events, row.uuid = uuid := by
  simp [stored, Table.isSome_find]

/-- What `insert_or_read` does with one event. -/
theorem insertOrRead_eq (brand user : Option ℕ) (event : Reported) (m : Memory) (b v : Store) :
    (stored event.uuid v = true ∧ insertOrRead brand user event m b v = .done v (.ok (none, m))) ∨
      ∃ record t, stored event.uuid v = false ∧
        v.events.insert (pendingEvent brand user v.clock event) = some (record, t) ∧
        insertOrRead brand user event m b v =
          .done { v with events := t } (.ok (some record, m)) := by
  cases hfind : v.events.find (·.uuid == event.uuid) with
  | some row =>
    refine .inl ⟨by rw [stored, hfind]; rfl, ?_⟩
    rw [insertOrRead, query_bind, hfind]
    rfl
  | none =>
    have hfree : (v.events.insert (pendingEvent brand user v.clock event)).isSome = true := by
      rw [Table.insert_isSome rfl]
      intro row hrow k hk hk'
      have hne := Table.find_none hfind hrow
      simp only [Keyed.keys, List.mem_singleton, pendingEvent] at hk hk'
      simp [← hk, hk'] at hne
    obtain ⟨⟨record, t⟩, hinsert⟩ := Option.isSome_iff_exists.mp hfree
    refine .inr ⟨record, t, by rw [stored, hfind]; rfl, hinsert, ?_⟩
    rw [insertOrRead, query_bind, hfind]
    change (query _ >>= _) m b v = _
    rw [query_bind, query_bind, hinsert]
    rfl

theorem stored_insert {t : Table AppEvent} {record : AppEvent} {make : ℕ → AppEvent} {uuid : String}
    (h : v.events.insert make = some (record, t)) (hne : record.uuid ≠ uuid) :
    stored uuid { v with events := t } = stored uuid v := by
  simp [stored, Table.find_insert h, hne]

/-- The loop stores the events of a batch that are neither known nor there. -/
theorem ingestEach_eq (brand user : Option ℕ) (known : List String) (m : Memory) (b : Store)
    (hnodup : (events.map (·.uuid)).Nodup) :
    ∃ written t, ingestEach brand user known events m b v = .done t (.ok (written, m)) ∧
      Ingested brand user known events written v t := by
  induction events generalizing v with
  | nil =>
    exact ⟨[], v, rfl, (List.append_nil _).symm, rfl, rfl, fun _ h => absurd h List.not_mem_nil, le_rfl⟩
  | cons event rest ih =>
    obtain ⟨hhead, hrest⟩ := List.nodup_cons.mp hnodup
    have hne : ∀ uuid ∈ rest.map (·.uuid), event.uuid ≠ uuid := by
      rintro uuid h rfl
      exact hhead h
    by_cases hknown : known.contains event.uuid = true
    · obtain ⟨written, t, hrun, h⟩ := ih (v := v) hrest
      refine ⟨written, t, ?_, h.rows, h.kept, ?_, fun row hrow => ?_, h.next⟩
      · rw [ingestEach, if_pos hknown, hrun]
      · rw [h.new, List.map_cons, List.filter_cons_of_neg (by simp [List.contains_iff_mem.mp hknown])]
      · obtain ⟨e, he, id, hid⟩ := h.pending row hrow
        exact ⟨e, List.mem_cons_of_mem _ he, id, hid⟩
    rcases insertOrRead_eq brand user event m b v with
      ⟨hstored, hinsert⟩ | ⟨record, u, hstored, hnew, hinsert⟩
    · obtain ⟨written, t, hrun, h⟩ := ih (v := v) hrest
      refine ⟨written, t, ?_, h.rows, h.kept, ?_, fun row hrow => ?_, h.next⟩
      · rw [ingestEach, if_neg hknown, bind_ok hinsert, bind_ok hrun]
        rfl
      · rw [h.new, List.map_cons, List.filter_cons_of_neg (by simp [hstored])]
      · obtain ⟨e, he, id, hid⟩ := h.pending row hrow
        exact ⟨e, List.mem_cons_of_mem _ he, id, hid⟩
    · obtain ⟨written, t, hrun, h⟩ := ih (v := { v with events := u }) hrest
      obtain ⟨hrecord, -, -, hrows, hnext⟩ := Table.insert_eq_some hnew
      have hle : v.events.next ≤ u.next := Nat.le_of_succ_le hnext.ge
      refine ⟨record :: written, t, ?_, ?_, ?_, ?_, ?_, ?_⟩
      · rw [ingestEach, if_neg hknown, bind_ok hinsert, bind_ok hrun]
        rfl
      · rw [h.rows, hrows, List.append_assoc, List.singleton_append]
      · rw [h.kept]
      · rw [List.map_cons, List.map_cons, List.filter_cons_of_pos (by simpa [hstored] using hknown),
          h.new, show record.uuid = event.uuid from hrecord ▸ rfl]
        refine congrArg _ (List.filter_congr fun uuid huuid => ?_)
        rw [stored_insert hnew (show record.uuid ≠ uuid from hrecord ▸ hne uuid huuid)]
      · intro row hrow
        rcases List.mem_cons.mp hrow with rfl | hrow
        · exact ⟨event, List.mem_cons_self, v.events.next, le_rfl, hrecord⟩
        · obtain ⟨e, he, id, hid, hrow⟩ := h.pending row hrow
          exact ⟨e, List.mem_cons_of_mem _ he, id, (hle.trans hid), hrow⟩
      · exact hle.trans h.next

/-- What is in a batch after one more event of it. -/
theorem mem_put {e : Reported} : e ∈ put events event ↔
    e = event ∨ (e ∈ events ∧ e.uuid ≠ event.uuid) := by
  unfold put
  split_ifs with hany
  · obtain ⟨old, hold, huuid⟩ := List.any_eq_true.mp hany
    simp only [List.mem_map, beq_iff_eq]
    constructor
    · rintro ⟨a, ha, rfl⟩
      split_ifs with hsame
      · exact .inl rfl
      · exact .inr ⟨ha, hsame⟩
    · rintro (rfl | ⟨he, hne⟩)
      · exact ⟨old, hold, if_pos (beq_iff_eq.mp huuid)⟩
      · exact ⟨e, he, if_neg hne⟩
  · have hne : ∀ a ∈ events, a.uuid ≠ event.uuid := by simpa using hany
    simp only [List.mem_append, List.mem_singleton]
    exact ⟨fun h => h.symm.imp_right fun he => ⟨he, hne e he⟩, fun h => (h.imp_right And.left).symm⟩

theorem uuids_put : (put events event).map (·.uuid) =
    if event.uuid ∈ events.map (·.uuid) then events.map (·.uuid)
    else events.map (·.uuid) ++ [event.uuid] := by
  have hany : events.any (·.uuid == event.uuid) = true ↔ event.uuid ∈ events.map (·.uuid) := by
    simp [List.any_eq_true]
  unfold put
  by_cases hmem : event.uuid ∈ events.map (·.uuid)
  · rw [if_pos (hany.mpr hmem), if_pos hmem, List.map_map]
    refine List.map_congr_left fun e _ => ?_
    by_cases hsame : e.uuid = event.uuid <;> simp [hsame]
  · rw [if_neg (fun h => hmem (hany.mp h)), if_neg hmem, List.map_append]
    rfl

theorem incoming_append : incoming (events ++ [event]) = put (incoming events) event :=
  List.foldl_append

/-- A batch has an uuid once. -/
theorem nodup_incoming (events : List Reported) : ((incoming events).map (·.uuid)).Nodup := by
  induction events using List.reverseRecOn with
  | nil => exact List.nodup_nil
  | append_singleton events event ih =>
    rw [incoming_append, uuids_put]
    split_ifs with hmem
    · exact ih
    · exact List.nodup_append_comm.mp (List.nodup_cons.mpr ⟨hmem, ih⟩)

theorem mem_uuids_incoming {uuid : String} :
    uuid ∈ (incoming events).map (·.uuid) ↔ uuid ∈ events.map (·.uuid) := by
  induction events using List.reverseRecOn with
  | nil => exact Iff.rfl
  | append_singleton events event ih =>
    rw [incoming_append, uuids_put, List.map_append, List.mem_append, ← ih, List.map_singleton,
      List.mem_singleton]
    split_ifs with hmem
    · exact ⟨.inl, fun h => h.elim id fun heq => heq ▸ hmem⟩
    · rw [List.mem_append, List.mem_singleton]

/-- What stands in a batch for an uuid is what came last under it. -/
theorem last_of_incoming (h : event ∈ incoming events) :
    events.reverse.find? (·.uuid == event.uuid) = some event := by
  induction events using List.reverseRecOn with
  | nil => exact absurd h List.not_mem_nil
  | append_singleton events last ih =>
    rw [incoming_append, mem_put] at h
    rw [List.reverse_concat, List.find?_cons]
    rcases h with rfl | ⟨hmem, hne⟩
    · rw [beq_self_eq_true]
    · rw [show (last.uuid == event.uuid) = false from beq_false_of_ne (Ne.symm hne)]
      exact ih hmem

/-- A batch is counted by its uuids. -/
theorem length_incoming (events : List Reported) :
    (incoming events).length = (events.map (·.uuid)).dedup.length := by
  have hperm : ((incoming events).map (·.uuid)).Perm (events.map (·.uuid)).dedup :=
    (List.perm_ext_iff_of_nodup (nodup_incoming events) (List.nodup_dedup _)).mpr fun uuid => by
      rw [mem_uuids_incoming, List.mem_dedup]
  rw [← hperm.length_eq, List.length_map]

/-- How a call of `ingest` ends: with the rows it wrote counted, and the uuids it did not. -/
def Answers : Call → Memory → Except Fault (Option (ℕ × ℕ) × Memory) → Prop
  | .ingest _ _ events, g, .ok (counted, m) => m = g ∧ ∃ written duplicated,
      g.written = some written ∧ counted = some (written.length, duplicated) ∧
      written.length + duplicated = (events.map (·.uuid)).dedup.length
  | .ingest _ _ _, _, .error _ => False
  | _, _, _ => True

theorem ingest_meets (hc : c = .ingest brand user events) (hm : m.written = none) (s : Store) :
    (ingest brand user events).Meets (stepping (Works c))
      (ending (fun g p _ _ => p.2 = g ∧ ∃ written, g.written = some written ∧
        p.1.1 = written.length ∧ p.1.1 + p.1.2 = (events.map (·.uuid)).dedup.length)
        (fun _ _ _ _ => False)) m m s s := by
  simp only [ingest, pass, meets_bind, meets_query, meets_remember, ending_ok, steps_yield, id_eq]
  refine ⟨.knew _, fun t => ?_⟩
  obtain ⟨written, u, hrun, stored⟩ := ingestEach_eq brand user
    (knownUuids ((incoming events).map (·.uuid)) s) (v := t)
    { m with known := knownUuids ((incoming events).map (·.uuid)) s } t (nodup_incoming events)
  rw [meets_done hrun]
  simp only [meets_bind, meets_remember, meets_pure, ending_ok, steps_publish]
  refine ⟨.ingested hc hm stored, fun _ => ⟨trivial, written, rfl, rfl, ?_⟩⟩
  have hle : written.length ≤ (incoming events).length := by
    have := congrArg List.length stored.new
    rw [List.length_map] at this
    rw [this, ← List.length_map (f := fun e : Reported => e.uuid)]
    exact List.length_filter_le _ _
  rw [← length_incoming]
  exact Nat.add_sub_cancel' hle

theorem claim_meets (id : ℕ) (m : Memory) (s : Store) :
    (claim id).Meets (stepping (Works c)) (ending
      (fun g p b v => g = p.2 ∧ b = v ∧ (p.1 = true → ∃ l ∈ p.2.held, l.row = id))
      (fun _ _ _ _ => True)) m m s s := by
  have hselect : s.events.select (fun e => e.id == id && takeable s.clock e) =
      ((s.events.get id).filter (takeable s.clock)).toList := Table.select_id
  simp only [claim, now, writeEvents, meets_bind, meets_query, meets_execute, ending_ok, hselect]
  cases hrow : (s.events.get id).filter (takeable s.clock) with
  | none =>
    have hnone : ∀ e ∈ s.events, (e.id == id && takeable s.clock e) = false := by
      intro e he
      have hnot : e ∉ s.events.select (fun e => e.id == id && takeable s.clock e) := by
        rw [hselect, hrow]
        exact List.not_mem_nil
      simpa [he] using hnot
    rw [Table.modify_none _ hnone]
    refine meets_ite.mpr ⟨by simp, fun _ => ?_⟩
    simp only [meets_bind, meets_pure, ending_ok, steps_publish]
    exact ⟨.rest m s, fun t => ⟨trivial, trivial, by simp⟩⟩
  | some row =>
    obtain ⟨hget, hp⟩ := Option.filter_eq_some_iff.mp hrow
    obtain ⟨hmem, rfl⟩ := Table.get_eq_some_iff.mp hget
    refine meets_ite.mpr ⟨fun _ => ?_, by simp⟩
    simp only [meets_bind, meets_remember, meets_pure, ending_ok, steps_publish]
    exact ⟨.took hmem hp, fun t => ⟨trivial, trivial, fun _ => ⟨_, rfl, rfl⟩⟩⟩

/-- The rewrite of one row by its copy. -/
theorem flush_meets {γ : Type} {C : Contract γ Memory Store} {g : γ} {loaded now : AppEvent}
    {post : γ → Except Fault (Unit × Memory) → Store → Store → Prop}
    (hok : ∀ row ∈ v.events, row.id = loaded.id → post g (.ok ((), m)) b { v with
      events := v.events.modify (·.id == loaded.id) (AppEvent.write loaded now v.clock)
        (still_write _ _ _) })
    (herr : post g (.error .staleData) b v) : (flush loaded now).Meets C post g m b v := by
  simp only [flush, Events.now, writeEvents, meets_bind, meets_query, ending_ok]
  cases hget : v.events.get loaded.id with
  | none => exact herr
  | some row => exact hok row (Table.mem_of_get hget) (Table.id_of_get hget)

theorem dispatch_eq (event : AppEvent) (m : Memory) (b v : Store) : dispatch event m b v =
    .done { v with logs := v.logs ++ (entry event).toList }
      (.ok ((eventCategories.lookup event.name).isSome, m)) := by
  unfold dispatch entry
  cases eventCategories.lookup event.name with
  | none =>
    change Outcome.done v _ = _
    simp
  | some category => rfl

variable {desk : Desk} {l : Lease}

theorem readEvent_meets {event : AppEvent} (hl : m.held = some l) (hm : m.record = some event)
    (hid : event.id = l.row) (s : Store) : (readEvent desk event).Meets (stepping (Works c))
      (ending (fun g p b v => g = p.2 ∧ b = v) (fun g _ b _ => g = m ∧ b = s)) m m s s := by
  simp only [readEvent, meets_bind, now]
  rw [meets_done (dispatch_eq event m s s)]
  simp only [ending_ok, meets_bind, meets_query]
  refine flush_meets (fun row hrow hsame => ?_) ⟨rfl, rfl⟩
  simp only [ending_ok]
  cases desk event with
  | some error => exact ⟨rfl, rfl⟩
  | none =>
    simp only [meets_bind, meets_remember, meets_pure, ending_ok, steps_publish]
    exact ⟨.read hl hm hid hrow hsame, fun t => ⟨trivial, trivial⟩⟩

theorem writeFailure_meets {id : ℕ} (hl : m.held = some l) (hid : l.row = id) (error : Fault) (s w : Store) :
    (writeFailure id error).Meets (stepping (Works c)) anew m m s w := by
  simp only [writeFailure, pass, meets_bind, meets_revert, meets_query, ending_ok]
  cases hget : s.events.get id with
  | none =>
    simp only [meets_bind, meets_remember, meets_pure, ending_ok, steps_yield]
    exact ⟨.lost, fun t => ⟨rfl, rfl⟩⟩
  | some event =>
    obtain ⟨hmem, hsame⟩ := Table.get_eq_some_iff.mp hget
    simp only [meets_bind, meets_remember, ending_ok, steps_yield, now, meets_query]
    refine ⟨.loaded hl hmem (hsame.trans hid.symm), fun t => ?_⟩
    refine flush_meets (fun row hrow hrow' => ?_) trivial
    simp only [meets_bind, meets_remember, meets_pure, ending_ok, steps_publish]
    exact ⟨.broke hl rfl (hsame.trans hid.symm) hrow hrow', fun t => ⟨rfl, rfl⟩⟩

theorem settle_meets {id : ℕ} (hl : m.held = some l) (hid : l.row = id) (s : Store) :
    (settle desk id).Meets (stepping (Works c)) anew m m s s := by
  simp only [settle, pass, meets_bind, meets_query, ending_ok]
  cases hget : s.events.get id with
  | none =>
    simp only [meets_bind, meets_remember, meets_pure, ending_ok, steps_yield]
    exact ⟨.lost, fun t => ⟨rfl, rfl⟩⟩
  | some event =>
    obtain ⟨hmem, hsame⟩ := Table.get_eq_some_iff.mp hget
    simp only [meets_bind, meets_remember, ending_ok, steps_yield, meets_attempt]
    refine ⟨.loaded hl hmem (hsame.trans hid.symm), fun t => ?_⟩
    refine (readEvent_meets (by exact hl) rfl (hsame.trans hid.symm) t).mono ?_
    rintro g (e | p) b v h
    · obtain ⟨rfl, rfl⟩ := h
      exact writeFailure_meets (by exact hl) hid e b v
    · exact h

/-- A pass takes its events one after the other. -/
theorem processEach_steps (ids : List ℕ) : (processEach desk ids).Steps (Works c) := by
  induction ids with
  | nil => exact steps_pure []
  | cons id rest ih =>
    intro m s
    refine (claim_meets id m s).bind ?_ (fun _ _ _ _ _ => trivial)
    rintro g got m b v ⟨rfl, rfl, hgot⟩
    cases got with
    | false => exact ih _ _
    | true =>
      obtain ⟨l, hl, hid⟩ := hgot rfl
      exact meets_bind_anew (settle_meets hl hid b) fun settled =>
        Steps.bind ih fun worked => steps_pure _

theorem processPending_steps : (processPending desk).Steps (Works c) := by
  intro m s
  simp only [processPending, now, pass, meets_bind, meets_query, ending_ok, steps_yield]
  exact ⟨.rest m s, fun t => processEach_steps _ m t⟩

theorem closeExhausted_meets (hm : m.held = none) (s : Store) :
    closeExhausted.Meets (stepping (Works c)) anew m m s s := by
  simp only [closeExhausted, now, writeEvents, meets_bind, meets_query, meets_execute, meets_pure,
    ending_ok, steps_publish]
  exact ⟨.closed hm, fun t => ⟨rfl, rfl⟩⟩

theorem discard_meets {days size pages : ℕ} (m : Memory) (s : Store) :
    (discard days size pages).Meets (stepping (Works (.discard days size pages))) anew m m s s := by
  refine meets_ite.mpr ⟨fun hdays => ?_, fun _ => ⟨rfl, rfl⟩⟩
  simp only [now, meets_bind, meets_query, ending_ok]
  -- the pages of one call are those of the moment it started from
  exact Retention.trimWhere_meets
    (fun m t => m.before = s.clock - days * Calendar.day ∨
      s.clock - days * Calendar.day = t.clock - days * Calendar.day)
    (fun m t h => .doomed rfl hdays h) (fun ids m t => .dropped) (fun _ _ _ => .inl rfl) pages (.inr rfl)

/-- How a session of a call ends. -/
def Ends (c : Call) (g : Memory) (result : Except Fault (Option (ℕ × ℕ) × Memory)) (_ _ : Store) : Prop :=
  Answers c g result

theorem serve_meets (c : Call) (s : Store) :
    c.serve.Meets (stepping (Works c)) (Ends c) Memory.empty Memory.empty s s := by
  cases c with
  | ingest brand user events =>
    refine (ingest_meets rfl rfl s).bind ?_ (fun _ _ _ _ h => h.elim)
    rintro g ⟨accepted, duplicated⟩ m b v ⟨rfl, written, hwritten, hcount, hsum⟩
    dsimp only at hcount hsum
    subst hcount
    exact ⟨rfl, written, duplicated, hwritten, rfl, hsum⟩
  | closeExhausted =>
    exact (meets_bind_anew (closeExhausted_meets rfl s) fun _ => steps_pure none).mono
      fun _ _ _ _ _ => trivial
  | processPending desk =>
    exact (processPending_steps.bind (fun _ => steps_pure none) Memory.empty s).mono
      fun _ _ _ _ _ => trivial
  | processPendingEvents desk =>
    exact (meets_bind_anew (closeExhausted_meets rfl s) fun _ => processPending_steps.bind fun _ =>
      steps_pure none).mono fun _ _ _ _ _ => trivial
  | discard days size pages =>
    exact (meets_bind_anew (discard_meets Memory.empty s) fun _ => steps_pure none).mono fun _ _ _ _ _ => trivial
  | tick duration =>
    simp only [Call.serve, meets_bind, meets_execute, meets_pure, ending_ok, steps_publish]
    exact ⟨.ticked duration, fun t => trivial⟩

/-- Every turn of a pool of event sessions is a step of the call of the one that took it. -/
theorem stepping_serve (calls : List Call) (s : Store) :
    Pool.Stepping (fun i m s m' t => ∃ c ∈ calls[i]?, Works c m s m' t)
      (fun i g r b v => ∃ c ∈ calls[i]?, Ends c g r b v) (sessions calls s) :=
  Pool.stepping_calls Call.serve (fun _ => Memory.empty) s calls fun c _ t => serve_meets c t

namespace App

/-- A purchase an app told of at the start of time. -/
def purchase (status : AppEventStatus) : AppEvent where
  id := 0
  tenantId := none
  userId := none
  uuid := "purchase"
  name := "product-purchased"
  params := .null
  occurredAt := 0
  status := status
  attempts := 0
  errorCode := none
  errorMessage := none
  processedAt := none
  createdAt := 0
  updatedAt := 0

def store (status : AppEventStatus) (clock : ℕ) : Store :=
  ⟨clock, ⟨[purchase status], 1, List.pairwise_singleton _ _, by simp [purchase, Keyed.id]⟩, []⟩

end App
end FastKit.Events
