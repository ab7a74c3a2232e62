import FastKit.Services.Email
import FastKit.Transaction.Steps

/-! # What the mail queue keeps

Every segment of a session of the e-mail service is one of seven steps. As long as no
sender goes on with a message that was taken back from it, a message that waits has attempts
left, is taken no more often than there are attempts, and stays closed once it is.
-/

namespace FastKit.Email
open Transaction Transaction.Program

/-- The row of a message a sender took at a moment. -/
def taken (moment : ℕ) (m : OutboundEmail) : OutboundEmail :=
  { m with status := .sending, attempts := m.attempts + 1, updatedAt := moment }

theorem still_taken (moment : ℕ) : Still (taken moment) := fun _ => ⟨rfl, rfl⟩

theorem still_write (loaded now : OutboundEmail) (moment : ℕ) :
    Still (OutboundEmail.write loaded now moment) := fun _ => ⟨rfl, rfl⟩

/-- What becomes of a message that was dialled, by its copy before and after. -/
def Became (loaded now : OutboundEmail) : Prop :=
  now.status = .sent ∨ now.status = .refused ∨
    (now.status = .failed ∧ maxAttempts ≤ loaded.attempts) ∨
    (now.status = .pending ∧ loaded.attempts < maxAttempts)

/-- What a segment of a session does, by what the session had in hand. -/
inductive Sends : Memory → Store → Memory → Store → Prop where
  | rest (m : Memory) (s : Store) : Sends m s m s
  | queued {m : Memory} {s : Store} {make : ℕ → OutboundEmail} {row : OutboundEmail}
      {t : Table OutboundEmail} (inserted : s.emails.insert make = some (row, t))
      (unread : row.attempts = 0) (waits : row.status = .pending ∨ row.status = .refused)
      (stamped : row.updatedAt = s.clock) : Sends m s m { s with emails := t }
  | claimed {m : Memory} {s : Store} {row : OutboundEmail} (found : row ∈ s.emails)
      (waits : row.status = .pending) :
      Sends m s ⟨some ⟨row.id, s.clock, row.attempts + 1⟩, none⟩
        { s with emails := s.emails.modify (·.id == row.id) (taken s.clock) (still_taken _) }
  | loaded {hold : Hold} {s : Store} {record : OutboundEmail} (found : record ∈ s.emails)
      (same : record.id = hold.message) : Sends ⟨some hold, none⟩ s ⟨some hold, some record⟩ s
  | wrote {hold : Hold} {s : Store} {record now : OutboundEmail}
      {suppressed : Table SuppressedAddress} {logs : List LogEntry} (became : Became record now) :
      Sends ⟨some hold, some record⟩ s Memory.empty { s with
        emails := s.emails.modify (·.id == record.id) (OutboundEmail.write record now s.clock)
          (still_write _ _ _)
        suppressed := suppressed
        logs := logs }
  | lost {hold : Hold} {s : Store} {record : OutboundEmail} :
      Sends ⟨some hold, some record⟩ s Memory.empty s
  | swept {m : Memory} {s : Store} : Sends m s m { s with
      emails := s.emails.modify (stranded s.clock) (reclaimed s.clock) (still_reclaimed _) }
  | ticked {m : Memory} {s : Store} (duration : ℕ) :
      Sends m s m { s with clock := s.clock + duration }

theorem became_failed (record : OutboundEmail) (error : SendError) :
    Became record (failed record error) := by
  cases error with
  | addressRefused text => exact .inr (.inl rfl)
  | other name text =>
    by_cases h : maxAttempts ≤ record.attempts
    · exact .inr (.inr (.inl ⟨by simp [failed, h], h⟩))
    · exact .inr (.inr (.inr ⟨by simp [failed, h], Nat.lt_of_not_le h⟩))

theorem queue_steps (tenantId : Option ℕ) (address subject template : String)
    (replyTo : Option String) (locale : String) (context : List (String × String)) :
    (queue tenantId address subject template replyTo locale context).Steps Sends := by
  intro m s
  simp only [queue, pass, now, meets_bind, meets_query, ending_ok, steps_yield, id_eq]
  refine ⟨.rest m s, fun t => ?_⟩
  cases h : t.emails.insert _ with
  | none => trivial
  | some p =>
    obtain ⟨row, u⟩ := p
    obtain ⟨rfl, -⟩ := Table.insert_eq_some h
    simp only [meets_bind, meets_require_some, meets_execute, meets_pure, ending_ok, steps_publish]
    refine ⟨.queued h rfl ?_ rfl, fun _ => ⟨rfl, rfl⟩⟩
    dsimp only
    split_ifs
    · exact .inr rfl
    · exact .inl rfl

/-- How a failed delivery is written down. -/
theorem fail_meets {hold : Hold} {record : OutboundEmail} (error : SendError) (s : Store) :
    (fail record error).Meets (stepping Sends) (ending
      (fun g p b v => g = ⟨some hold, some record⟩ ∧ p.2 = Memory.empty ∧ b = s ∧
        Sends ⟨some hold, some record⟩ s Memory.empty v) (fun _ _ _ _ => False))
      ⟨some hold, some record⟩ Memory.empty s s := by
  have hb : Became record (failed record error) := became_failed record error
  cases error with
  | addressRefused text =>
    simp only [fail, flush, now, writeEmails, suppress, Email.record, meets_bind, meets_query,
      meets_execute, ending_ok]
    split
    · exact ⟨rfl, rfl, rfl, .wrote hb⟩
    · simp only [meets_bind, meets_query, ending_ok]
      split
      · exact ⟨rfl, rfl, rfl, .wrote hb⟩
      · exact ⟨rfl, rfl, rfl, .wrote hb⟩
  | other name text => exact ⟨rfl, rfl, rfl, .wrote hb⟩

theorem writeDown_meets (relay : Relay) (error : Option SendError) (hold : Hold)
    (record : OutboundEmail) (s : Store) :
    (writeDown relay error).Meets (stepping Sends) anew ⟨some hold, some record⟩
      ⟨some hold, some record⟩ s s := by
  simp only [writeDown, meets_bind, meets_remembered, meets_require_some, meets_remember, ending_ok]
  split_ifs
  · simp only [meets_bind, meets_pure, ending_ok, steps_publish]
    exact ⟨.lost, fun _ => ⟨rfl, rfl⟩⟩
  · cases error with
    | some error =>
      refine (fail_meets error s).bind ?_ (fun _ _ _ _ h => h.elim)
      rintro _ _ _ _ v ⟨rfl, rfl, rfl, h⟩
      simp only [meets_bind, meets_pure, ending_ok, steps_publish]
      exact ⟨h, fun _ => ⟨rfl, rfl⟩⟩
    | none =>
      simp only [flush, now, writeEmails, meets_bind, meets_query, meets_execute, meets_pure,
        ending_ok, steps_publish]
      exact ⟨.wrote (.inl rfl), fun _ => ⟨rfl, rfl⟩⟩

theorem settle_meets (relay : Relay) (hold : Hold) (s : Store) :
    (settle relay hold.message).Meets (stepping Sends) anew ⟨some hold, none⟩ ⟨some hold, none⟩ s s := by
  simp only [settle, pass, meets_bind, meets_query, ending_ok]
  cases h : s.emails.get hold.message with
  | none => trivial
  | some record =>
    simp only [meets_require_some, meets_bind, meets_remember, ending_ok, steps_yield, id_eq]
    refine ⟨.loaded (Table.mem_of_get h) (Table.id_of_get h), fun t => ?_⟩
    split
    · exact writeDown_meets relay _ hold record t
    · exact writeDown_meets relay _ hold record t

/-- A claim that was the one that got the message has it in hand. -/
theorem claim_meets (id : ℕ) (m : Memory) (s : Store) :
    (claim id).Meets (stepping Sends) (ending
      (fun g p b v => g = p.2 ∧ b = v ∧
        (p.1 = true → ∃ hold : Hold, p.2 = ⟨some hold, none⟩ ∧ hold.message = id))
      (fun _ _ _ _ => True)) m m s s := by
  simp only [claim, now, meets_bind, meets_query, ending_ok]
  split
  · rename_i row h
    obtain rfl : row.id = id := Table.id_of_get h
    split_ifs with hp
    · simp only [writeEmails, meets_bind, meets_execute, meets_remember, meets_pure, ending_ok,
        steps_publish]
      exact ⟨.claimed (Table.mem_of_get h) hp, fun t => ⟨trivial, trivial, fun _ => ⟨_, rfl, rfl⟩⟩⟩
    · simp only [meets_bind, meets_pure, ending_ok, steps_publish]
      exact ⟨.rest m s, fun t => ⟨trivial, trivial, by simp⟩⟩
  · simp only [meets_bind, meets_pure, ending_ok, steps_publish]
    exact ⟨.rest m s, fun t => ⟨trivial, trivial, by simp⟩⟩

theorem processEach_steps (relay : Relay) (deadline : ℕ) (ids : List ℕ) :
    (processEach relay deadline ids).Steps Sends := by
  induction ids with
  | nil => exact steps_pure []
  | cons id rest ih =>
    refine (steps_query _).bind fun moment => ?_
    split_ifs
    · exact steps_pure []
    · intro m s
      refine (claim_meets id m s).bind ?_ (fun _ _ _ _ h => h)
      rintro _ got m b _ ⟨rfl, rfl, hgot⟩
      split_ifs with hn
      · exact ih _ b
      · obtain ⟨hold, rfl, rfl⟩ := hgot (by simpa using hn)
        refine meets_bind_anew (settle_meets relay hold b) fun settled => ?_
        exact ih.bind fun _ => steps_pure _

theorem processPending_steps (relay : Relay) : (processPending relay).Steps Sends := by
  intro m s
  simp only [processPending, pass, now, meets_bind, meets_query, ending_ok, steps_yield, id_eq]
  exact ⟨.rest m s, fun t => processEach_steps relay _ _ m t⟩

theorem reclaimAbandoned_steps : reclaimAbandoned.Steps Sends := by
  intro m s
  simp only [reclaimAbandoned, now, writeEmails, meets_bind, meets_query, meets_execute,
    meets_pure, ending_ok, steps_publish]
  exact ⟨.swept, fun _ => ⟨rfl, rfl⟩⟩

theorem serve_steps (c : Call) : c.serve.Steps Sends := by
  cases c with
  | queue tenantId address subject template replyTo locale context =>
    exact (queue_steps _ _ _ _ _ _ _).bind fun _ => steps_pure ()
  | processPending relay => exact (processPending_steps relay).bind fun _ => steps_pure ()
  | reclaimAbandoned => exact reclaimAbandoned_steps.bind fun _ => steps_pure ()
  | sendPendingEmails relay =>
    exact reclaimAbandoned_steps.bind fun _ => (processPending_steps relay).bind fun _ => steps_pure ()
  | tick by' =>
    intro m s
    simp only [Call.serve, meets_bind, meets_execute, ending_ok, steps_publish]
    exact ⟨.ticked by', fun _ => ⟨rfl, rfl⟩⟩

end FastKit.Email
