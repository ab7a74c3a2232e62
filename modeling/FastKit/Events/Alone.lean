import FastKit.Events.Steps

/-! # Calls nobody runs beside

What retention drops is what one delete of its condition would. A pass closes the events it read,
each as one write of it would.
-/

namespace FastKit.Events
open Transaction Transaction.Program

variable {m : Memory} {s : Store} {size days pages id : ℕ} {row : AppEvent}
  {desk : Desk} {rest : List ℕ}

/-- Retention alone, with a window, ends once its pages outnumber what is settled and older than
the window: it drops all of that and nothing else, whatever the size of a page. -/
theorem discard_alone (hdays : 0 < days) (hsize : 0 < size)
    (hpages : (s.events.select (settled (s.clock - days * Calendar.day))).length < pages) :
    ∃ m', (discard days size pages).run m s s =
      (.ok ((s.events.select (settled (s.clock - days * Calendar.day))).length, m'),
        { s with events := s.events.erase (settled (s.clock - days * Calendar.day)) },
        { s with events := s.events.erase (settled (s.clock - days * Calendar.day)) }) := by
  simp only [discard, if_pos hdays, now, run_bind, run_query, onward_ok]
  exact Retention.trimWhere_alone hsize hpages

/-- A purchase that was read is dropped, and nothing is left. -/
theorem discard_alone_purchase : ∃ m', (discard 1 10 2).run Memory.empty
    (App.store .processed (2 * Calendar.day)) (App.store .processed (2 * Calendar.day)) =
      (.ok (1, m'),
        { App.store .processed (2 * Calendar.day) with
          events := (App.store .processed (2 * Calendar.day)).events.erase (settled Calendar.day) },
        { App.store .processed (2 * Calendar.day) with
          events := (App.store .processed (2 * Calendar.day)).events.erase (settled Calendar.day) }) :=
  discard_alone (by decide) (by decide) (by decide)

/-- An event a pass that runs alone took and read. -/
def handled (desk : Desk) (moment : ℕ) (e : AppEvent) : AppEvent :=
  (desk (taken moment e)).elim
    (settledEvent (eventCategories.lookup e.name).isSome moment (taken moment e))
    (fun error => brokenEvent (.raised error.1 error.2) moment (taken moment e))

theorem still_handled (desk : Desk) (moment : ℕ) : Still (handled desk moment) := by
  intro e
  unfold handled
  cases desk (taken moment e) <;> exact ⟨rfl, rfl⟩

/-- The line of the log an event that is read leaves, where reading it breaks nothing. -/
def line (desk : Desk) (moment : ℕ) (e : AppEvent) : Option LogEntry :=
  (desk (taken moment e)).elim (entry e) (fun _ => none)

def handleAll (desk : Desk) (ids : List ℕ) (s : Store) : Store :=
  { s with
    events := s.events.modify (fun e => ids.contains e.id) (handled desk s.clock) (still_handled _ _)
    logs := s.logs ++ ids.filterMap (fun id => (s.events.get id).bind (line desk s.clock)) }

theorem claim_alone (hrow : row ∈ s.events) (hwaits : takeable s.clock row = true) : ∃ m',
    (claim row.id).run m s s = (.ok (true, m'),
      { s with events := s.events.modify (·.id == row.id) (taken s.clock) (still_taken _) },
      { s with events := s.events.modify (·.id == row.id) (taken s.clock) (still_taken _) }) := by
  have hselect : s.events.select (fun e => e.id == row.id && takeable s.clock e) = [row] := by
    refine (Table.select_id (i := row.id) (p := takeable s.clock)).trans ?_
    rw [show s.events.get row.id = some row from Table.get_of_mem hrow, Option.filter_some_pos hwaits]
    rfl
  have hmodify : s.events.modify (fun e => e.id == row.id && takeable s.clock e) (taken s.clock)
      (still_taken _) = s.events.modify (·.id == row.id) (taken s.clock) (still_taken _) := by
    refine Table.ext_rows (List.map_congr_left fun e he => ?_) rfl
    by_cases hid : e.id = row.id
    · obtain rfl := Table.eq_of_id he hrow hid
      simp [hwaits]
    · simp [hid]
  simp only [claim, now, writeEvents, run_bind, run_query, run_execute, onward_ok, hselect, hmodify]
  exact ⟨_, rfl⟩

theorem dispatch_alone (event : AppEvent) (m : Memory) (b v : Store) : (dispatch event).run m b v =
    (.ok ((eventCategories.lookup event.name).isSome, m), b,
      { v with logs := v.logs ++ (entry event).toList }) := by
  rw [Program.run, dispatch_eq]
  rfl

theorem flush_alone {loaded now : AppEvent} {b v : Store} (h : (v.events.get loaded.id).isSome = true) :
    (flush loaded now).run m b v = (.ok ((), m), b, { v with
      events := v.events.modify (·.id == loaded.id) (AppEvent.write loaded now v.clock)
        (still_write _ _ _) }) := by
  obtain ⟨a, ha⟩ := Option.isSome_iff_exists.mp h
  simp only [flush, Events.now, writeEvents, run_bind, run_query, onward_ok, ha]
  rfl

/-- What a pass writes over the event it took is what it took, closed. -/
theorem write_taken {now : AppEvent} {moment : ℕ} (hsame : now = { taken moment row with
      status := now.status
      errorCode := now.errorCode
      errorMessage := now.errorMessage
      processedAt := now.processedAt }) :
    AppEvent.write (taken moment row) now moment (taken moment row) = now := by
  have hchanged : ∀ {α : Type} [DecidableEq α] (x y : α), changed x y x = y := by
    intro α _ x y
    unfold changed
    split_ifs with heq
    · exact heq.symm
    · rfl
  conv_rhs => rw [hsame]
  simp only [AppEvent.write, hchanged]
  congr 1
  split_ifs <;> rfl

/-- The event a pass took, as the pass closes it, in a table where it was not taken. -/
theorem modify_taken (desk : Desk) (now : AppEvent) (hrow : row ∈ s.events)
    (hnow : AppEvent.write (taken s.clock row) now s.clock (taken s.clock row) = handled desk s.clock row) :
    (s.events.modify (·.id == row.id) (taken s.clock) (still_taken _)).modify
      (·.id == (taken s.clock row).id) (AppEvent.write (taken s.clock row) now s.clock) (still_write _ _ _) =
    s.events.modify (fun e => [row.id].contains e.id) (handled desk s.clock) (still_handled _ _) := by
  refine Table.ext_rows ?_ rfl
  simp only [Table.modify, List.map_map]
  refine List.map_congr_left fun e he => ?_
  by_cases hid : e.id = row.id
  · obtain rfl := Table.eq_of_id he hrow hid
    simpa [taken] using hnow
  · have hne : e.id ≠ (taken s.clock row).id := hid
    simp [hid, hne]

theorem settle_alone (desk : Desk) (hrow : row ∈ s.events) : ∃ m',
    (settle desk row.id).run m
        { s with events := s.events.modify (·.id == row.id) (taken s.clock) (still_taken _) }
        { s with events := s.events.modify (·.id == row.id) (taken s.clock) (still_taken _) } =
      (.ok (some row.id, m'), handleAll desk [row.id] s, handleAll desk [row.id] s) := by
  have hget : s.events.get row.id = some row := Table.get_of_mem hrow
  have htaken : (s.events.modify (·.id == row.id) (taken s.clock) (still_taken _)).get row.id =
      some (taken s.clock row) := by
    rw [Table.get_modify, hget]
    simp
  have hline : [row.id].filterMap (fun id => (s.events.get id).bind (line desk s.clock)) =
      (line desk s.clock row).toList := by
    simp only [List.filterMap_cons, hget, Option.bind_some, List.filterMap_nil]
    cases line desk s.clock row <;> rfl
  unfold handleAll
  rw [hline]
  cases hdesk : desk (taken s.clock row) with
  | none =>
    have hsettled := modify_taken desk (settledEvent
      (eventCategories.lookup (taken s.clock row).name).isSome s.clock (taken s.clock row)) hrow (by
        rw [write_taken rfl, handled, hdesk]
        rfl)
    have hread : line desk s.clock row = entry (taken s.clock row) := by
      rw [line, hdesk]
      rfl
    simp only [settle, readEvent, now, pass, run_bind, run_query, run_remember, run_yield, run_attempt,
      onward_ok, htaken, dispatch_alone, id_eq]
    rw [flush_alone (by exact Option.isSome_of_mem htaken), hsettled, hread]
    simp only [onward_ok, hdesk, run_bind, run_remember, run_publish, run_pure]
    exact ⟨_, rfl⟩
  | some error =>
    obtain ⟨name, text⟩ := error
    have hbroken := modify_taken desk (brokenEvent (.raised name text) s.clock (taken s.clock row)) hrow (by
        rw [write_taken rfl, handled, hdesk]
        rfl)
    have hread : line desk s.clock row = none := by
      rw [line, hdesk]
      rfl
    simp only [settle, readEvent, now, pass, run_bind, run_query, run_remember, run_yield, run_attempt,
      onward_ok, htaken, dispatch_alone, id_eq]
    rw [flush_alone (by exact Option.isSome_of_mem htaken)]
    simp only [onward_ok, hdesk, run_raise, onward_error, writeFailure, run_bind, run_revert, run_query,
      htaken, pass, run_remember, run_yield, now, id_eq]
    rw [flush_alone (by exact Option.isSome_of_mem htaken), hbroken, hread]
    simp only [onward_ok, run_bind, run_remember, run_publish, run_pure, Option.toList_none, List.append_nil]
    exact ⟨_, rfl⟩

theorem handleAll_cons (h : id ∉ rest) :
    handleAll desk rest (handleAll desk [id] s) = handleAll desk (id :: rest) s := by
  have hevents : (handleAll desk rest (handleAll desk [id] s)).events =
      (handleAll desk (id :: rest) s).events := by
    refine Table.ext_rows ?_ rfl
    simp only [handleAll, Table.modify, List.map_map]
    refine List.map_congr_left fun e _ => ?_
    by_cases hid : e.id = id
    · have hrest : (handled desk s.clock e).id ∉ rest := by
        rw [show (handled desk s.clock e).id = e.id from (still_handled desk s.clock e).1, hid]
        exact h
      simp [hid, hrest]
    · simp [hid]
  have hget : ∀ id' ∈ rest, (handleAll desk [id] s).events.get id' = s.events.get id' := by
    intro id' hid'
    rw [handleAll, Table.get_modify]
    cases hrow : s.events.get id' with
    | none => rfl
    | some row =>
      have hne : row.id ≠ id := fun heq => h (by rw [← heq, show row.id = id' from Table.id_of_get hrow]; exact hid')
      simp [hne]
  have hlogs : (handleAll desk rest (handleAll desk [id] s)).logs =
      (handleAll desk (id :: rest) s).logs := by
    change (s.logs ++ [id].filterMap _) ++ rest.filterMap _ = s.logs ++ ([id] ++ rest).filterMap _
    rw [List.append_assoc, List.filterMap_append]
    refine congrArg (s.logs ++ ·) (congrArg (List.filterMap _ [id] ++ ·) ?_)
    refine List.filterMap_congr fun id' hid' => ?_
    rw [hget id' hid']
    rfl
  rw [show handleAll desk rest (handleAll desk [id] s) =
    { s with
      events := (handleAll desk rest (handleAll desk [id] s)).events
      logs := (handleAll desk rest (handleAll desk [id] s)).logs } from rfl, hevents, hlogs]
  rfl

/-- The events of a pass that runs alone, taken and read one after the other. -/
theorem processEach_alone {ids : List ℕ} (desk : Desk) (hnodup : ids.Nodup)
    (hwaits : ∀ id ∈ ids, ∃ row ∈ s.events, row.id = id ∧ takeable s.clock row = true) :
    ∃ m', (processEach desk ids).run m s s = (.ok (ids, m'), handleAll desk ids s, handleAll desk ids s) := by
  induction ids generalizing m s with
  | nil =>
    have hsame : handleAll desk [] s = s := by
      unfold handleAll
      rw [Table.modify_none _ (by simp)]
      simp
    rw [hsame]
    exact ⟨m, rfl⟩
  | cons id rest ih =>
    obtain ⟨hid, hrest⟩ := List.nodup_cons.mp hnodup
    obtain ⟨row, hrow, rfl, hrowWaits⟩ := hwaits id List.mem_cons_self
    obtain ⟨m₁, hclaim⟩ := claim_alone (m := m) hrow hrowWaits
    obtain ⟨m₂, hsettle⟩ := settle_alone (m := m₁) desk hrow
    -- what is not of this event is still there for the rest of the pass
    obtain ⟨m₃, hrun⟩ := ih (m := m₂) (s := handleAll desk [row.id] s) hrest (by
      intro id' hid'
      obtain ⟨a, ha, rfl, hwaits'⟩ := hwaits id' (List.mem_cons_of_mem _ hid')
      have hne : a.id ≠ row.id := fun heq => hid (heq ▸ hid')
      have hmem := Table.mem_modify_of_mem (p := fun e => [row.id].contains e.id)
        (still_handled desk s.clock) ha
      rw [if_neg (by simpa using hne)] at hmem
      exact ⟨a, hmem, rfl, hwaits'⟩)
    refine ⟨m₃, ?_⟩
    simp only [processEach, run_bind, hclaim, onward_ok, Bool.not_true, Bool.false_eq_true, if_false,
      hsettle, hrun, handleAll_cons hid]
    rfl

/-- A pass alone takes the events that wait, the oldest `BATCH` of them: it closes each as read or
as broken, with one attempt more, leaves every other event as it was, and records those that broke
nothing in the order of their ids. -/
theorem processPending_alone (desk : Desk) (m : Memory) (s : Store) :
    ∃ m', (processPending desk).run m s s = (.ok (waitingIds s.clock s, m'),
      handleAll desk (waitingIds s.clock s) s, handleAll desk (waitingIds s.clock s) s) := by
  have hsorted : ∀ id ∈ waitingIds s.clock s,
      ∃ row ∈ s.events, row.id = id ∧ takeable s.clock row = true := by
    intro id hid
    obtain ⟨row, hrow, rfl⟩ := List.mem_map.mp hid
    have hselect := (List.mem_insertionSort _).mp (List.mem_of_mem_take hrow)
    obtain ⟨hmem, hwaits⟩ := Table.mem_select.mp hselect
    exact ⟨row, hmem, rfl, hwaits⟩
  have hnodup : (waitingIds s.clock s).Nodup := by
    have hids : ((s.events.select (takeable s.clock)).map (·.id)).Nodup :=
      List.pairwise_map.mpr ((s.events.apart.filter _).imp fun h => h.1)
    have hperm := (List.perm_insertionSort (fun a b : AppEvent => a.id ≤ b.id)
      (s.events.select (takeable s.clock))).map (·.id)
    exact (hperm.nodup_iff.mpr hids).sublist ((List.take_sublist _ _).map _)
  obtain ⟨m', hrun⟩ := processEach_alone (m := m) desk hnodup hsorted
  refine ⟨m', ?_⟩
  simp only [processPending, now, pass, run_bind, run_query, run_yield, onward_ok, id_eq]
  exact hrun

end FastKit.Events
