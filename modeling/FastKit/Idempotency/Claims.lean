import FastKit.Services.Idempotency
import FastKit.Transaction.Steps

/-! # What a key a client named keeps

Every segment of a call is one of a few steps. As long as no call goes on after its work with
a key that was taken over from it, a pair is answered once and stays answered, and two calls
work under one pair only where the earlier one outlived its claim.
-/

namespace FastKit.Idempotency
open Transaction Transaction.Program

/-- What a segment of a session does, by what the session had in hand. -/
inductive Claims : Memory → Store → Memory → Store → Prop where
  | rest (m : Memory) (s : Store) : Claims m s m s
  | inserted {m : Memory} {s : Store} {make : ℕ → ClientRequest} {row : ClientRequest}
      {t : Table ClientRequest} (inserted : s.requests.insert make = some (row, t))
      (unanswered : row.answer = none) (stamped : row.claimedAt = s.clock) :
      Claims m s ⟨m.fails, some ⟨row.id, row.pair, s.clock⟩, some row⟩ { s with requests := t }
  | found {fails : Bool} {s : Store} {named : Option ClientRequest}
      (found : ∀ row ∈ named, row ∈ s.requests) : Claims (idle fails) s ⟨fails, none, named⟩ s
  | took {fails : Bool} {s : Store} {named row : ClientRequest} (found : row ∈ s.requests)
      (same : row.id = named.id) (gone : abandoned s.clock row = true) :
      Claims ⟨fails, none, some named⟩ s ⟨fails, some ⟨named.id, named.pair, s.clock⟩, some named⟩ { s with
        requests := s.requests.modify (fun r => r.id == named.id && abandoned s.clock r)
          (tookOver s.clock) (still_tookOver _) }
  | gaveBack {hold : Hold} {named : ClientRequest} {s : Store} :
      Claims ⟨true, some hold, some named⟩ s (idle true) { s with
        requests := s.requests.erase (fun r => r.id == hold.record && r.answer.isNone) }
  | settled {hold : Hold} {named row : ClientRequest} {s : Store} (found : row ∈ s.requests)
      (same : row.id = hold.record) (answer : String) :
      Claims ⟨false, some hold, some named⟩ s ⟨false, none, some (answered answer named)⟩ { s with
        requests := s.requests.modify (·.id == hold.record) (answered answer) (still_answered _) }
  | ticked {m : Memory} {s : Store} (duration : ℕ) :
      Claims m s m { s with clock := s.clock + duration }

variable {m m' : Memory} {s t : Store} {row row' : ClientRequest} {hold hold' : Hold}

/-- The row that was read, or the one written for the pair, which the session works under. -/
theorem insertOrRead_meets (userId : ℕ) (key endpoint : String) (m : Memory) (s : Store) :
    (insertOrRead userId key endpoint).Meets (stepping Claims) (ending
      (fun g p b v => (p.1.2 = false → g = p.2 ∧ g = m ∧ b = v ∧ ∀ row ∈ p.1.1, row ∈ v.requests ∧
          row.pair = (userId, key)) ∧
        (p.1.2 = true → Claims g b p.2 v ∧ ∃ row, p.1.1 = some row ∧ row.pair = (userId, key) ∧
          p.2 = ⟨m.fails, some ⟨row.id, row.pair, b.clock⟩, some row⟩))
      (fun _ _ _ _ => False)) m m s s := by
  have hread : ∀ (s : Store), ∀ row ∈ read userId key s, row ∈ s.requests ∧ row.pair = (userId, key) :=
    fun s row h => ⟨Table.mem_of_find h, by simpa using Table.find_holds h⟩
  simp only [insertOrRead, meets_bind, meets_query, ending_ok]
  cases h : read userId key s with
  | some settled =>
    exact ⟨fun _ => ⟨rfl, rfl, rfl, by rintro row ⟨⟩; exact hread s settled h⟩, by simp⟩
  | none =>
    simp only [pass, now, meets_bind, meets_query, ending_ok, steps_yield, id_eq]
    refine ⟨.rest m s, fun t => ?_⟩
    cases hi : t.requests.insert _ with
    | some p =>
      obtain ⟨row, u⟩ := p
      obtain ⟨rfl, -⟩ := Table.insert_eq_some hi
      simp only [meets_bind, meets_execute, meets_remember, meets_pure, ending_ok]
      exact ⟨by simp, fun _ => ⟨.inserted hi rfl rfl, _, rfl, rfl, rfl⟩⟩
    | none =>
      simp only [meets_bind, meets_query, meets_pure, ending_ok, steps_yield, id_eq]
      exact ⟨.rest m t, fun u => ⟨fun _ => ⟨trivial, trivial, trivial, hread u⟩, by simp⟩⟩

/-- A key that was taken over is worked under, and others stay as they were. -/
theorem takeOver_meets (fails : Bool) (named : ClientRequest) (s : Store) :
    (takeOver named).Meets (stepping Claims) (ending
      (fun g p b v => g = p.2 ∧ b = v ∧ (p.1 = true → ∃ moment,
        p.2 = ⟨fails, some ⟨named.id, named.pair, moment⟩, some named⟩))
      (fun _ _ _ _ => False)) ⟨fails, none, some named⟩ ⟨fails, none, some named⟩ s s := by
  simp only [takeOver, now, writeRequests, meets_bind, meets_query, meets_execute, ending_ok]
  cases h : s.requests.find (fun r => r.id == named.id && abandoned s.clock r) with
  | some row =>
    have hrow := Table.find_holds h
    simp only [Bool.and_eq_true, beq_iff_eq] at hrow
    simp only [Option.isSome_some, if_true, meets_bind, meets_remember, meets_pure, ending_ok,
      steps_publish]
    exact ⟨.took (Table.mem_of_find h) hrow.1 hrow.2,
      fun _ => ⟨trivial, trivial, fun _ => ⟨_, rfl⟩⟩⟩
  | none =>
    -- no row is rewritten where none was found
    have hnone : s.requests.modify (fun r => r.id == named.id && abandoned s.clock r)
        (tookOver s.clock) (still_tookOver _) = s.requests := by
      refine Table.modify_none _ fun r hr => ?_
      have hr' := Table.find_none h hr
      exact hr'
    simp only [hnone, Option.isSome_none, Bool.false_eq_true, if_false, meets_bind, meets_pure,
      ending_ok, steps_publish]
    exact ⟨.rest _ s, fun _ => ⟨trivial, trivial, by simp⟩⟩

/-- What a claim ends with: a key the call works under, or the row its answer is on. -/
theorem claim_meets (fails : Bool) (userId : ℕ) (key : Option String) (endpoint : String) (s : Store) :
    (claim userId key endpoint).Meets (stepping Claims) (ending
      (fun g p b v => g = p.2 ∧ b = v ∧
        (∀ answer ∈ p.1.2, ∃ row ∈ p.2.named, row.answer = some answer ∧
          key = some row.idempotencyKey ∧ row.userId = userId) ∧
        (p.1.2 = none → (p.1.1 = none ∧ (key = none ∨ key = some "")) ∨
          ∃ row moment, p.1.1 = some row ∧ p.2 = ⟨fails, some ⟨row.id, row.pair, moment⟩, some row⟩ ∧
            key = some row.idempotencyKey ∧ row.userId = userId))
      (fun _ _ _ _ => True)) (idle fails) (idle fails) s s := by
  unfold claim
  cases key with
  | none => exact ⟨rfl, rfl, by simp, fun _ => .inl ⟨rfl, .inl rfl⟩⟩
  | some key =>
    dsimp only
    split_ifs with hempty
    · exact ⟨rfl, rfl, by simp, fun _ => .inl ⟨rfl, .inr (by rw [hempty])⟩⟩
    refine (insertOrRead_meets userId key endpoint _ s).bind ?_ (fun _ _ _ _ h => h.elim)
    rintro g ⟨named, taking⟩ m b v ⟨hread, htake⟩
    cases taking with
    | true =>
      obtain ⟨hstep, row, rfl, hpair, rfl⟩ := htake rfl
      obtain ⟨hu, hk⟩ := Prod.mk.inj hpair
      simp only [if_true, meets_bind, meets_pure, ending_ok, steps_publish]
      refine ⟨hstep, fun t => ⟨trivial, trivial, by simp, fun _ => .inr ?_⟩⟩
      exact ⟨row, _, rfl, rfl, by rw [← hk], hu⟩
    | false =>
      obtain ⟨rfl, rfl, rfl, hfound⟩ := hread rfl
      simp only [Bool.false_eq_true, if_false, meets_bind, meets_remember, ending_ok, steps_publish]
      refine ⟨.found fun row hrow => (hfound row hrow).1, fun t => ?_⟩
      cases named with
      | none => trivial
      | some named =>
        obtain ⟨hu, hk⟩ := Prod.mk.inj (hfound named rfl).2
        dsimp only
        split_ifs
        · trivial
        cases ha : named.answer with
        | some answer =>
          refine ⟨rfl, rfl, ?_, by simp⟩
          rintro _ ⟨⟩
          exact ⟨named, rfl, ha, by rw [← hk], hu⟩
        | none =>
          refine (takeOver_meets fails named t).bind ?_ (fun _ _ _ _ h => h.elim)
          rintro g taken m b v ⟨rfl, rfl, htaken⟩
          cases taken with
          | false => trivial
          | true =>
            obtain ⟨moment, rfl⟩ := htaken rfl
            refine ⟨rfl, rfl, by simp, fun _ => .inr ?_⟩
            exact ⟨named, moment, rfl, rfl, by rw [← hk], hu⟩

/-- How a call ends that was given a key: what it answers is on the row it read or wrote. -/
def Answers : Call → Memory → Except Fault (Option String × Memory) → Prop
  | .once userId (some key) _ _, g, .ok (some answer, _) =>
    key ≠ "" → ∃ row ∈ g.named, row.pair = (userId, key) ∧ row.answer = some answer
  | _, _, _ => True

theorem giveBack_meets (hold : Hold) (named : ClientRequest) (s : Store) :
    (giveBack (some hold.record)).Meets (stepping Claims)
      (ending (fun _ _ _ _ => True) (fun _ _ _ _ => False)) ⟨true, some hold, some named⟩
      ⟨true, some hold, some named⟩ s s := by
  simp only [giveBack, deleteRequests, meets_bind, meets_revert, meets_execute, meets_remember,
    ending_ok, steps_publish]
  exact ⟨.gaveBack, fun _ => trivial⟩

theorem settle_meets (named : ClientRequest) (pair : ℕ × String) (moment : ℕ) (answer : String)
    (s : Store) : (settle (some named) answer).Meets (stepping Claims) (ending
      (fun g _ _ _ => g.named = some (answered answer named)) (fun _ _ _ _ => True))
      ⟨false, some ⟨named.id, pair, moment⟩, some named⟩
      ⟨false, some ⟨named.id, pair, moment⟩, some named⟩ s s := by
  simp only [settle, writeRequests, meets_bind, meets_query, ending_ok]
  cases h : s.requests.get named.id with
  | none => trivial
  | some row =>
    simp only [meets_require_some, meets_bind, meets_execute, meets_remember, ending_ok, steps_publish]
    exact ⟨.settled (Table.mem_of_get h) (Table.id_of_get h) answer, fun _ => trivial⟩

theorem serve_meets (c : Call) (s : Store) : c.serve.Meets (stepping Claims)
    (fun g r _ _ => Answers c g r) (idle c.fails) (idle c.fails) s s := by
  cases c with
  | tick by' =>
    simp only [Call.serve, meets_bind, meets_execute, meets_pure, ending_ok, steps_publish]
    exact ⟨.ticked by', fun _ => trivial⟩
  | once userId key endpoint work =>
    -- what the key says of the row an answer stands on
    have answers : ∀ {g : Memory} {row : ClientRequest} {answer : String} {m : Memory},
        row ∈ g.named → row.answer = some answer → key = some row.idempotencyKey →
        row.userId = userId → Answers (.once userId key endpoint work) g (.ok (some answer, m)) := by
      rintro g row answer m hrow ha rfl rfl _
      exact ⟨row, hrow, rfl, ha⟩
    have unnamed : ∀ {g : Memory} {r : Except Fault (Option String × Memory)},
        key = none ∨ key = some "" → Answers (.once userId key endpoint work) g r := by
      rintro g (e | ⟨_ | answer, m⟩) (rfl | rfl) <;> first | trivial | exact fun h => absurd rfl h
    have failed : ∀ {g : Memory} {e : Fault}, Answers (.once userId key endpoint work) g (.error e) := by
      intro g e
      cases key <;> trivial
    simp only [Call.serve, once, meets_bind]
    refine (claim_meets _ userId key endpoint s).mono ?_
    rintro g (e | ⟨⟨named, kept⟩, m⟩) b v h
    · exact failed
    obtain ⟨rfl, rfl, hkept, hnone⟩ := h
    cases kept with
    | some answer =>
      obtain ⟨row, hrow, ha, hk, hu⟩ := hkept answer rfl
      exact answers hrow ha hk hu
    | none =>
      rcases hnone rfl with ⟨rfl, hk⟩ | ⟨row, moment, rfl, rfl, hk, hu⟩
      · cases work with
        | error text => exact failed
        | ok answer => exact unnamed hk
      · cases work with
        | error text =>
          exact (giveBack_meets ⟨row.id, row.pair, moment⟩ row b).bind
            (fun _ _ _ _ _ _ => failed) (fun _ _ _ _ h => h.elim)
        | ok answer =>
          refine (settle_meets row row.pair moment answer b).bind ?_ (fun _ _ _ _ _ => failed)
          intro g _ m b v hnamed
          exact answers (show answered answer row ∈ g.named from hnamed) rfl hk hu

end FastKit.Idempotency
