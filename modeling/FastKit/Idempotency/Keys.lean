import FastKit.Idempotency.Claims

/-! # One answer for a key

A call that goes on with a key that is still its own answers its own row. Answers stay then,
and a key is worked under by another call only once the claim of the earlier one ran out.
-/

namespace FastKit.Idempotency
open Transaction Transaction.Program

variable {m m' : Memory} {s t : Store} {row row' : ClientRequest} {hold hold' : Hold}

/-- The key is still the call's own: its row stands unanswered, as the call claimed it. -/
def InHand (s : Store) (hold : Hold) : Prop :=
  ∃ row ∈ s.requests, row.id = hold.record ∧ row.pair = hold.pair ∧ row.answer = none ∧
    row.claimedAt = hold.moment

def answerOf (pair : ℕ × String) (s : Store) : Option String :=
  (s.requests.find (·.pair == pair)).bind (·.answer)

theorem answerOf_eq_some {pair : ℕ × String} {answer : String} : answerOf pair s = some answer ↔
    ∃ row ∈ s.requests, row.pair = pair ∧ row.answer = some answer := by
  unfold answerOf
  constructor
  · intro h
    obtain ⟨row, hrow, ha⟩ := Option.bind_eq_some_iff.mp h
    exact ⟨row, Table.mem_of_find hrow, by simpa using Table.find_holds hrow, ha⟩
  · rintro ⟨row, hrow, hp, ha⟩
    obtain ⟨found, hf⟩ := Table.find_isSome (p := fun r => r.pair == pair) hrow (by simp [hp])
    have hpair : found.pair = pair := by simpa using Table.find_holds hf
    obtain rfl : found = row := Table.eq_of_key (Table.mem_of_find hf) hrow
      (List.mem_singleton.mpr rfl) (List.mem_singleton.mpr (hpair.trans hp.symm))
    rw [hf, Option.bind_some, ha]

def working (q : Sessions) (i : ℕ) : Option Hold := (q.memory i).bind Memory.working

/-- Where a call goes on after its work, the row of its key is gone, is still its own, or was
answered while the call has nothing to answer. -/
def Harmless (m : Memory) (s : Store) : Prop :=
  ∀ hold ∈ m.working, ∀ row ∈ s.requests, row.id = hold.record →
    (row.answer = none ∧ row.claimedAt = hold.moment) ∨ (row.answer ≠ none ∧ m.fails = true)

/-- No call goes on with a key that another one took over from it. -/
def Kept (q : Sessions) (i : ℕ) (_ : Sessions) : Prop := ∀ m ∈ q.memory i, Harmless m q.store

instance (m : Memory) (s : Store) : Decidable (Harmless m s) := by
  unfold Harmless
  infer_instance

instance (q : Sessions) (i : ℕ) (r : Sessions) : Decidable (Kept q i r) := by
  unfold Kept
  infer_instance

/-- What one step of a session does to a row. -/
inductive Moved (moment : ℕ) (m : Memory) (row : ClientRequest) : ClientRequest → Prop where
  | still : Moved moment m row row
  | took (free : m.working = none) (gone : abandoned moment row = true) :
      Moved moment m row (tookOver moment row)
  | settled {hold : Hold} (answer : String) (held : m.working = some hold)
      (same : row.id = hold.record) (done : m.fails = false) :
      Moved moment m row (answered answer row)

theorem Moved.same {moment : ℕ} (h : Moved moment m row row') :
    row'.id = row.id ∧ row'.pair = row.pair := by
  cases h <;> exact ⟨rfl, rfl⟩

/-- Every row of a step is one that was there, moved, or one written new for its pair. -/
theorem Claims.cases (h : Claims m s m' t) : ∀ row' ∈ t.requests,
    (∃ row ∈ s.requests, Moved s.clock m row row') ∨ row'.id = s.requests.next := by
  intro row' hrow
  cases h with
  | rest | found | ticked => exact .inl ⟨row', hrow, .still⟩
  | inserted inserted =>
    rcases (Table.mem_insert inserted).mp hrow with hrow | rfl
    · exact .inl ⟨row', hrow, .still⟩
    · exact .inr (Table.insert_eq_some inserted).2.1
  | took =>
    obtain ⟨a, ha, rfl⟩ := (Table.mem_modify (still_tookOver _)).mp hrow
    refine .inl ⟨a, ha, ?_⟩
    split_ifs with hp
    · exact .took rfl (Bool.and_eq_true_iff.mp hp).2
    · exact .still
  | gaveBack => exact .inl ⟨row', (Table.mem_erase.mp hrow).1, .still⟩
  | settled found same answer =>
    obtain ⟨a, ha, rfl⟩ := (Table.mem_modify (still_answered _)).mp hrow
    refine .inl ⟨a, ha, ?_⟩
    split_ifs with hp
    · exact .settled answer rfl (beq_iff_eq.mp hp) rfl
    · exact .still

/-- A row stays, moved, unless the call that works under it failed and gives it back. -/
theorem Claims.stays (h : Claims m s m' t) (hrow : row ∈ s.requests) :
    (∃ row' ∈ t.requests, Moved s.clock m row row') ∨
      ∃ hold ∈ m.working, row.id = hold.record ∧ row.answer = none := by
  cases h with
  | rest | found | ticked => exact .inl ⟨row, hrow, .still⟩
  | inserted inserted => exact .inl ⟨row, (Table.mem_insert inserted).mpr (.inl hrow), .still⟩
  | took =>
    refine .inl ⟨_, Table.mem_modify_of_mem (still_tookOver _) hrow, ?_⟩
    split_ifs with hp
    · exact .took rfl (Bool.and_eq_true_iff.mp hp).2
    · exact .still
  | @gaveBack hold =>
    by_cases hp : (row.id == hold.record && row.answer.isNone) = true
    · simp only [Bool.and_eq_true, beq_iff_eq, Option.isNone_iff_eq_none] at hp
      exact .inr ⟨hold, rfl, hp⟩
    · exact .inl ⟨row, Table.mem_erase.mpr ⟨hrow, Bool.eq_false_of_not_eq_true hp⟩, .still⟩
  | settled found same answer =>
    refine .inl ⟨_, Table.mem_modify_of_mem (still_answered _) hrow, ?_⟩
    split_ifs with hp
    · exact .settled answer rfl (beq_iff_eq.mp hp) rfl
    · exact .still

theorem Claims.clock (h : Claims m s m' t) : s.clock ≤ t.clock := by
  cases h with
  | ticked duration => exact Nat.le_add_right _ _
  | _ => exact le_rfl

theorem Claims.next (h : Claims m s m' t) : s.requests.next ≤ t.requests.next := by
  cases h with
  | inserted inserted => exact Nat.le_of_succ_le (Table.insert_eq_some inserted).2.2.2.2.ge
  | _ => exact le_rfl

/-- A row that was answered stays as it is. -/
theorem Claims.answered_stays (h : Claims m s m' t) (ok : Harmless m s) (hrow : row ∈ s.requests)
    (ha : row.answer ≠ none) : row ∈ t.requests := by
  rcases h.stays hrow with ⟨row', hrow', hm⟩ | ⟨hold, hh, hid, hnone⟩
  · cases hm with
    | still => exact hrow'
    | took _ gone =>
      simp only [abandoned, Bool.and_eq_true, Option.isNone_iff_eq_none] at gone
      exact absurd gone.1 ha
    | settled answer held same done =>
      rcases ok _ held row hrow same with ⟨hnone, -⟩ | ⟨-, hf⟩
      · exact absurd hnone ha
      · rw [done] at hf
        cases hf
  · exact absurd hnone ha

/-- An answer stays. -/
theorem Claims.answerOf (h : Claims m s m' t) (ok : Harmless m s) {pair : ℕ × String}
    {answer : String} (ha : answerOf pair s = some answer) : answerOf pair t = some answer := by
  obtain ⟨row, hrow, hp, ha⟩ := answerOf_eq_some.mp ha
  exact answerOf_eq_some.mpr ⟨row, h.answered_stays ok hrow (by simp [ha]), hp, ha⟩

/-- What a session has in hand: its copy names a row of its pair and repeats its answer, and
the key is still its own or was claimed longer ago than a claim holds. -/
structure Tracked (s : Store) (m : Memory) : Prop where
  fresh : ∀ named ∈ m.named, named.id < s.requests.next
  pair : ∀ named ∈ m.named, ∀ row ∈ s.requests, row.id = named.id → row.pair = named.pair
  copied : ∀ named ∈ m.named, named.answer ≠ none →
    ∃ row ∈ s.requests, row.id = named.id ∧ row.answer = named.answer
  working : ∀ hold ∈ m.working, ∃ named ∈ m.named, named.id = hold.record ∧ named.pair = hold.pair
  held : ∀ hold ∈ m.working, InHand s hold ∨ hold.moment + abandonedAfter < s.clock

/-- Two claims of one pair are more than a claim apart. -/
def Distant (hold hold' : Hold) : Prop :=
  hold.pair = hold'.pair →
    hold.moment + abandonedAfter < hold'.moment ∨ hold'.moment + abandonedAfter < hold.moment

theorem tracked_idle (s : Store) (fails : Bool) : Tracked s (idle fails) :=
  ⟨by simp [idle], by simp [idle], by simp [idle], by simp [idle], by simp [idle]⟩

/-- A row that is in two hands is of two claims. -/
theorem Tracked.own_row (h : Tracked s m) (ok : Harmless m s) (hh : hold ∈ m.working)
    (hrow : row ∈ s.requests) (hid : row.id = hold.record) (ha : row.answer = none) :
    row.pair = hold.pair ∧ row.claimedAt = hold.moment := by
  obtain ⟨named, hn, hid', hp⟩ := h.working hold hh
  refine ⟨(h.pair named hn row hrow (hid.trans hid'.symm)).trans hp, ?_⟩
  rcases ok hold hh row hrow hid with ⟨-, hc⟩ | ⟨hne, -⟩
  · exact hc
  · exact absurd ha hne

/-- A key in the hand of one session after a step of another: still its own, or taken over
after its claim ran out. -/
theorem InHand.step (h : InHand s hold) (c : Claims m s m' t) (ok : Harmless m s)
    (hm : Tracked s m) (hd : ∀ hold' ∈ m.working, Distant hold hold') :
    InHand t hold ∨ hold.moment + abandonedAfter < s.clock := by
  obtain ⟨row, hrow, hid, hp, ha, hc⟩ := h
  have hnot : ∀ hold' ∈ m.working, row.id ≠ hold'.record := by
    intro hold' hh' hid'
    obtain ⟨hp', hc'⟩ := hm.own_row ok hh' hrow hid' ha
    have := hd hold' hh' (hp.symm.trans hp')
    omega
  rcases c.stays hrow with ⟨row', hrow', hmoved⟩ | ⟨hold', hh', hid', -⟩
  · cases hmoved with
    | still => exact .inl ⟨row, hrow', hid, hp, ha, hc⟩
    | took _ gone =>
      simp only [abandoned, Bool.and_eq_true, decide_eq_true_eq] at gone
      exact .inr (hc ▸ gone.2)
    | settled answer held same done => exact absurd same (hnot _ held)
  · exact absurd hid' (hnot hold' hh')

/-- What one session has in hand after a step of another. -/
theorem Tracked.step {m₀ : Memory} (h : Tracked s m₀) (c : Claims m s m' t) (ok : Harmless m s)
    (hm : Tracked s m) (hd : ∀ hold ∈ m₀.working, ∀ hold' ∈ m.working, Distant hold hold') :
    Tracked t m₀ := by
  refine ⟨?_, ?_, ?_, h.working, ?_⟩
  · intro named hn
    exact lt_of_lt_of_le (h.fresh named hn) c.next
  · intro named hn row' hrow' hid
    rcases c.cases row' hrow' with ⟨row, hrow, hmoved⟩ | hnew
    · rw [hmoved.same.2]
      exact h.pair named hn row hrow (hmoved.same.1.symm.trans hid)
    · have := h.fresh named hn
      omega
  · intro named hn ha
    obtain ⟨row, hrow, hid, hra⟩ := h.copied named hn ha
    exact ⟨row, c.answered_stays ok hrow (hra ▸ ha), hid, hra⟩
  · intro hold hh
    rcases h.held hold hh with hin | hlate
    · rcases hin.step c ok hm (hd hold hh) with hin | hlate
      · exact .inl hin
      · exact .inr (lt_of_lt_of_le hlate c.clock)
    · exact .inr (lt_of_lt_of_le hlate c.clock)

/-- What a session has in hand after its own step. -/
theorem Tracked.own (h : Tracked s m) (c : Claims m s m' t) (ok : Harmless m s) : Tracked t m' := by
  -- a step that takes nothing in hand leaves what was there as a step of another would
  have idle : Claims (idle m.fails) s (idle m.fails) t → Tracked t m := fun c =>
    h.step c (by simp [Harmless, idle]) (tracked_idle s _) (by simp [idle])
  cases c with
  | rest => exact h
  | ticked duration => exact idle (.ticked duration)
  | gaveBack => exact tracked_idle _ _
  | @found _ _ named found =>
    refine ⟨fun n hn => s.requests.fresh n (found n hn), fun n hn row hrow hid => ?_,
      fun n hn _ => ⟨n, found n hn, rfl, rfl⟩, by simp, by simp⟩
    rw [Table.eq_of_id hrow (found n hn) hid]
  | @inserted _ _ make row u inserted unanswered stamped =>
    obtain ⟨-, hid, -, -, hnext⟩ := Table.insert_eq_some inserted
    have hmem : row ∈ u := (Table.mem_insert inserted).mpr (.inr rfl)
    refine ⟨?_, ?_, ?_, ?_, ?_⟩
    · rintro _ ⟨⟩
      exact u.fresh row hmem
    · rintro _ ⟨⟩ row' hrow' hid
      rw [Table.eq_of_id hrow' hmem hid]
    · rintro _ ⟨⟩ ha
      exact absurd unanswered ha
    · rintro _ ⟨⟩
      exact ⟨row, rfl, rfl, rfl⟩
    · rintro _ ⟨⟩
      exact .inl ⟨row, hmem, rfl, rfl, unanswered, stamped⟩
  | @took fails _ named row found same gone =>
    have h' := h.step (@Claims.took fails _ _ _ found same gone) ok h (by simp)
    have hmem := Table.mem_modify_of_mem (p := fun r => r.id == named.id && abandoned s.clock r)
      (still_tookOver s.clock) found
    rw [if_pos (by simp [same, gone])] at hmem
    refine ⟨h'.fresh, h'.pair, h'.copied, ?_, ?_⟩
    · rintro _ ⟨⟩
      exact ⟨named, rfl, rfl, rfl⟩
    · rintro _ ⟨⟩
      simp only [abandoned, Bool.and_eq_true, Option.isNone_iff_eq_none] at gone
      exact .inl ⟨_, hmem, same, h.pair named rfl row found same, gone.1, rfl⟩
  | @settled hold named row _ found same answer =>
    obtain ⟨_, hn, hid, -⟩ := h.working hold rfl
    obtain rfl := Option.some.inj hn
    have hmem := Table.mem_modify_of_mem (p := (·.id == hold.record)) (still_answered answer) found
    rw [if_pos (beq_iff_eq.mpr same)] at hmem
    refine ⟨?_, ?_, ?_, by simp, by simp⟩
    · rintro _ ⟨⟩
      exact h.fresh named rfl
    · rintro _ ⟨⟩ row' hrow' hid'
      obtain ⟨a, ha, rfl⟩ := (Table.mem_modify (still_answered answer)).mp hrow'
      have hsame : (if (a.id == hold.record) = true then answered answer a else a).pair = a.pair ∧
          (if (a.id == hold.record) = true then answered answer a else a).id = a.id := by
        split_ifs <;> exact ⟨rfl, rfl⟩
      rw [hsame.1]
      exact h.pair named rfl a ha (hsame.2.symm.trans hid')
    · rintro _ ⟨⟩ -
      exact ⟨_, hmem, same.trans hid.symm, rfl⟩

/-- What a session takes in hand is what it had, or a key that is nobody's in time. -/
theorem Claims.takes (c : Claims m s m' t) (hm : Tracked s m) (hh : hold ∈ m'.working) :
    hold ∈ m.working ∨ (hold.moment = s.clock ∧ ∀ hold', InHand s hold' → hold.pair = hold'.pair →
      hold'.moment + abandonedAfter < s.clock) := by
  cases c with
  | rest | ticked => exact .inl hh
  | found | gaveBack | settled => cases hh
  | @inserted _ _ _ row _ inserted =>
    obtain rfl := Option.some.inj hh
    refine .inr ⟨rfl, ?_⟩
    rintro hold' ⟨row', hrow', -, hp, -⟩ hpair
    exact absurd (List.mem_singleton.mpr (hp.trans hpair.symm)) (((Table.insert_eq_some inserted).2.2.1
      row' hrow').2 row'.pair (List.mem_singleton.mpr rfl))
  | @took _ _ named row found same gone =>
    obtain rfl := Option.some.inj hh
    refine .inr ⟨rfl, ?_⟩
    rintro hold' ⟨row', hrow', -, hp, -, hc⟩ hpair
    obtain rfl : row' = row := Table.eq_of_key hrow' found (List.mem_singleton.mpr rfl)
      (List.mem_singleton.mpr (hp.trans (hpair.symm.trans (hm.pair named rfl row found same).symm)))
    simp only [abandoned, Bool.and_eq_true, decide_eq_true_eq] at gone
    exact hc ▸ gone.2

theorem exists_memory {q : Sessions} {i : ℕ} (h : hold ∈ working q i) :
    ∃ m, q.memory i = some m ∧ hold ∈ m.working := Option.bind_eq_some_iff.mp h

theorem working_of_memory {q : Sessions} {i : ℕ} (h : q.memory i = some m) :
    working q i = m.working := by
  rw [working, h, Option.bind_some]

structure Orderly (q : Sessions) : Prop where
  tracked : ∀ i m, q.memory i = some m → Tracked q.store m
  distant : ∀ i j, i ≠ j → ∀ hold ∈ working q i, ∀ hold' ∈ working q j, Distant hold hold'

/-- Two claims of one pair are as far from each other either way. -/
theorem Distant.symm (h : Distant hold hold') : Distant hold' hold := fun hp => (h hp.symm).symm

/-- A turn of a call that goes on only with its own keeps the pool in order. -/
theorem Orderly.turn {q r : Sessions} {i : ℕ} (h : Orderly q) (ok : Kept q i r)
    {post : ℕ → Memory → Except Fault (Option String × Memory) → Store → Store → Prop}
    (turn : Pool.Stepped Claims post q i r) : Orderly r := by
  obtain ⟨m, hm, hstep⟩ := turn.step
  have hmine := h.tracked i m hm
  have hok := ok m hm
  rcases hstep with ⟨view, result, hend, hsame, -⟩ | ⟨m', hm', c⟩
  · have hback : ∀ j k, r.memory j = some k → q.memory j = some k := fun j k hj =>
      turn.memory_ended hend hj
    refine ⟨fun j k hj => hsame ▸ h.tracked j k (hback j k hj), ?_⟩
    intro j k hjk hold hh hold' hh'
    obtain ⟨mj, hmj, hh⟩ := exists_memory hh
    obtain ⟨mk, hmk, hh'⟩ := exists_memory hh'
    exact h.distant j k hjk hold (by rw [working_of_memory (hback _ _ hmj)]; exact hh) hold'
      (by rw [working_of_memory (hback _ _ hmk)]; exact hh')
  · -- a key is taken in hand only once the claims of the others ran out
    have hnew : ∀ j, j ≠ i → ∀ hold ∈ m'.working, ∀ hold' ∈ working q j, Distant hold hold' := by
      intro j hji hold hh hold' hh' hp
      rcases c.takes hmine hh with hh | ⟨hmoment, hlate⟩
      · exact h.distant i j (Ne.symm hji) hold (by rw [working_of_memory hm]; exact hh) hold' hh' hp
      · obtain ⟨k, hk, hh'⟩ := exists_memory hh'
        rw [hmoment]
        rcases (h.tracked j k hk).held hold' hh' with hin | hover
        · exact .inr (hlate hold' hin hp)
        · exact .inr hover
    refine ⟨fun j k hj => ?_, fun j k hjk hold hh hold' hh' => ?_⟩
    · by_cases hji : j = i
      · rw [hji, hm'] at hj
        obtain rfl := Option.some.inj hj
        exact hmine.own c hok
      · have hj' := (turn.memory_others hji).symm.trans hj
        refine (h.tracked j k hj').step c hok hmine fun hold hh hold' hh' => ?_
        exact h.distant j i hji hold (by rw [working_of_memory hj']; exact hh) hold'
          (by rw [working_of_memory hm]; exact hh')
    · by_cases hji : j = i
      · have hki : k ≠ i := fun hki => hjk (hji.trans hki.symm)
        rw [hji, working_of_memory hm'] at hh
        rw [working, turn.memory_others hki] at hh'
        exact hnew k hki hold hh hold' hh'
      · rw [working, turn.memory_others hji] at hh
        by_cases hki : k = i
        · rw [hki, working_of_memory hm'] at hh'
          exact (hnew j hji hold' hh' hold hh).symm
        · rw [working, turn.memory_others hki] at hh'
          exact h.distant j k hjk hold hh hold' hh'

theorem stepping_serve (calls : List Call) (s : Store) :
    Pool.Stepping (fun _ => Claims) (fun i g r _ _ => ∀ c ∈ calls[i]?, Answers c g r) (sessions calls s) :=
  Pool.stepping_sessions Call.serve (fun c => idle c.fails) s calls fun c _ => serve_meets c

theorem orderly_start (calls : List Call) (s : Store) : Orderly (sessions calls s) := by
  have hidle : ∀ i m, (sessions calls s).memory i = some m → ∃ fails, m = idle fails := by
    intro i m hm
    obtain ⟨o, ho, hm⟩ := Option.bind_eq_some_iff.mp hm
    simp only [sessions, List.getElem?_map, Option.map_eq_some_iff] at ho
    obtain ⟨c, -, rfl⟩ := ho
    exact ⟨c.fails, (Option.some.inj hm).symm⟩
  refine ⟨fun i m hm => ?_, fun i j _ hold hh => ?_⟩
  · obtain ⟨fails, rfl⟩ := hidle i m hm
    exact tracked_idle s fails
  · obtain ⟨m, hm, hheld⟩ := exists_memory hh
    obtain ⟨fails, rfl⟩ := hidle i m hm
    cases hheld

theorem run_orderly {calls : List Call} {trace : List (Turn Store)} {q : Sessions}
    (run : Pool.Run Kept (sessions calls s) trace q) : Orderly q :=
  run.invariant (stepping_serve calls s) (orderly_start calls s) fun _ _ _ ok turn h => h.turn ok turn

/-- What a call that goes on after its work rewrites or deletes is its own row. -/
theorem Claims.own_only (c : Claims m s m' t) (ok : Harmless m s) (hh : hold ∈ m.working)
    (hrow : row ∈ s.requests) : row ∈ t.requests ∨
      (row.id = hold.record ∧ row.answer = none ∧ row.claimedAt = hold.moment) := by
  have own : row.id = hold.record → row.answer = none ∨ m.fails = false →
      row.id = hold.record ∧ row.answer = none ∧ row.claimedAt = hold.moment := by
    intro hid hor
    rcases ok hold hh row hrow hid with ⟨ha, hc⟩ | ⟨ha, hf⟩
    · exact ⟨hid, ha, hc⟩
    · rcases hor with h | h
      · exact absurd h ha
      · rw [h] at hf
        cases hf
  rcases c.stays hrow with ⟨row', hrow', hm⟩ | ⟨hold', hh', hid, ha⟩
  · cases hm with
    | still => exact .inl hrow'
    | took free =>
      rw [free] at hh
      cases hh
    | settled answer held same done =>
      obtain rfl := Option.mem_unique hh held
      exact .inr (own same (.inr done))
  · obtain rfl := Option.mem_unique hh hh'
    exact .inr (own hid (.inl ha))

/-- A call that ended with an answer under a key has the answer the key was given. -/
def Settled (calls : List Call) (q : Sessions) : Prop :=
  ∀ (i userId : ℕ) (key endpoint : String) (work : Except String String) (view : Store)
    (answer : String) (m : Memory), calls[i]? = some (.once userId (some key) endpoint work) →
    key ≠ "" → q.sessions[i]? = some (.done view (.ok (some answer, m))) →
    answerOf (userId, key) q.store = some answer

theorem Settled.turn {calls : List Call} {q r : Sessions} {i : ℕ} (h : Settled calls q)
    (ho : Orderly q) (ok : Kept q i r) (turn : Pool.Stepped Claims
      (fun i g r _ _ => ∀ c ∈ calls[i]?, Answers c g r) q i r) : Settled calls r := by
  obtain ⟨m, hm, hstep⟩ := turn.step
  intro j userId key endpoint work view answer k hcall hkey hdone
  rcases hstep with ⟨view', result, hend, hsame, hpost⟩ | ⟨m', hm', c⟩
  · rw [hsame]
    by_cases hji : j = i
    · subst hji
      rw [hend] at hdone
      obtain ⟨rfl, rfl⟩ := Outcome.done.inj (Option.some.inj hdone)
      obtain ⟨row, hrow, hp, ha⟩ := hpost _ hcall hkey
      have ht := ho.tracked j m hm
      obtain ⟨found, hf, hid, hfa⟩ := ht.copied row hrow (by simp [ha])
      exact answerOf_eq_some.mpr ⟨found, hf, (ht.pair row hrow found hf hid).trans hp, hfa.trans ha⟩
    · exact h j userId key endpoint work view answer k hcall hkey ((turn.others j hji) ▸ hdone)
  · by_cases hji : j = i
    · subst hji
      rw [Pool.memory, hdone] at hm'
      cases hm'
    · exact c.answerOf (ok m hm)
        (h j userId key endpoint work view answer k hcall hkey ((turn.others j hji) ▸ hdone))

theorem run_settled {calls : List Call} {trace : List (Turn Store)} {q : Sessions}
    (run : Pool.Run Kept (sessions calls s) trace q) : Settled calls q := by
  refine (run.invariant (stepping_serve calls s) (I := fun q => Orderly q ∧ Settled calls q)
    ⟨orderly_start calls s, ?_⟩ fun _ _ _ ok turn h => ⟨h.1.turn ok turn, h.2.turn h.1 ok turn⟩).2
  intro i userId key endpoint work view answer m _ _ hdone
  simp [sessions, session] at hdone

/-- An answer stays through the turns of a run. -/
theorem run_answerOf {calls : List Call} {trace : List (Turn Store)} {q : Sessions}
    (run : Pool.Run Kept (sessions calls s) trace q) {pair : ℕ × String} {answer : String} :
    ∀ turn ∈ trace, answerOf pair turn.before = some answer → answerOf pair q.store = some answer := by
  induction run with
  | start => exact fun _ h => absurd h List.not_mem_nil
  | @turn trace q r i past taken ok ih =>
    obtain ⟨m, hm, hstep⟩ := (past.stepped (stepping_serve calls s) taken).step
    have hturn : answerOf pair q.store = some answer → answerOf pair r.store = some answer := by
      intro h
      rcases hstep with ⟨-, -, -, hsame, -⟩ | ⟨m', -, c⟩
      · rw [hsame]
        exact h
      · exact c.answerOf (ok m hm) h
    intro turn ht h
    rcases List.mem_append.mp ht with ht | ht
    · exact hturn (ih turn ht h)
    · obtain rfl := List.mem_singleton.mp ht
      exact hturn h

/-- In every run in which no call goes on with a key that was taken over from it: an answer of
a pair is never replaced or deleted, a call that ends with an answer under a key has the one
that is stored, two calls work under one pair only where the earlier one outlived its claim,
and what a call that ends its work rewrites or deletes is its own unanswered row. -/
theorem key_runs_one_call {calls : List Call} {s : Store} {trace : List (Turn Store)} {q : Sessions}
    (run : Pool.Run Kept (sessions calls s) trace q) :
    (∀ turn ∈ trace, ∀ pair answer, answerOf pair turn.before = some answer →
      answerOf pair q.store = some answer) ∧
    Settled calls q ∧
    (∀ i j, i ≠ j → ∀ hold ∈ working q i, ∀ hold' ∈ working q j, hold.pair = hold'.pair →
      hold.moment + abandonedAfter < hold'.moment ∨ hold'.moment + abandonedAfter < hold.moment) ∧
    ∀ i r, q.turn i = some r → Kept q i r → ∀ hold ∈ working q i, ∀ row ∈ q.store.requests,
      row ∈ r.store.requests ∨
        (row.id = hold.record ∧ row.answer = none ∧ row.claimedAt = hold.moment) := by
  have h := run_orderly run
  refine ⟨fun turn ht _ _ ha => run_answerOf run turn ht ha, run_settled run, h.distant, ?_⟩
  intro i r taken ok hold hh row hrow
  obtain ⟨m, hm, hstep⟩ := (run.stepped (stepping_serve calls s) taken).step
  rcases hstep with ⟨-, -, -, hsame, -⟩ | ⟨m', -, c⟩
  · rw [hsame]
    exact .inl hrow
  · rw [working_of_memory hm] at hh
    exact c.own_only (ok m hm) hh hrow

namespace Desk

/-- The session ended with the answer. -/
def said (q : Sessions) (i : ℕ) (answer : String) : Bool :=
  match q.sessions[i]? with
  | some (.done _ (.ok (some a, _))) => a == answer
  | _ => false

def call (work : Except String String) : Call := .once 1 (some "retry") "checkout" work

/-- Nothing was named yet. -/
def none' : Store := ⟨0, .empty⟩

theorem done_of_said {q : Sessions} {i : ℕ} {answer : String} (h : said q i answer = true) :
    ∃ view m, q.sessions[i]? = some (.done view (.ok (some answer, m))) := by
  unfold said at h
  split at h
  · rename_i view a m hq
    rw [beq_iff_eq.mp h] at hq
    exact ⟨view, m, hq⟩
  · cases h

end Desk

/-- A call dies with the key in hand, the next one takes it over and answers it, and a third
one is answered from the store. -/
theorem key_runs_one_call_died : ∃ trace q, Pool.Run Kept (sessions
    [Desk.call (.ok "first"), .tick (abandonedAfter + 1), Desk.call (.ok "second"),
      Desk.call (.ok "third")] Desk.none') trace q ∧
    Desk.said q 3 "second" = true ∧ answerOf (1, "retry") q.store = some "second" := by
  obtain ⟨trace, q, run, hq⟩ := Pool.exists_run Kept (sessions
    [Desk.call (.ok "first"), .tick (abandonedAfter + 1), Desk.call (.ok "second"),
      Desk.call (.ok "third")] Desk.none') [0, 0, 1, 2, 2, 2, 3, 3]
    (fun q => Desk.said q 3 "second" = true) (by decide +kernel)
  obtain ⟨view, m, hdone⟩ := Desk.done_of_said hq
  exact ⟨trace, q, run, hq, (key_runs_one_call run).2.1 3 1 "retry" "checkout" (.ok "third") view
    "second" m rfl (by decide) hdone⟩

/-- A slow call finishes after another one took its key over and answered it, and replaces the
answer the other one gave. -/
theorem slow_call_replaces_answer : ¬∀ (calls : List Call) (s : Store) (trace : List (Turn Store))
    (q : Sessions), Pool.Run (fun _ _ _ => True) (sessions calls s) trace q → Settled calls q := by
  intro h
  obtain ⟨trace, q, run, hsaid, hother⟩ := Pool.exists_run (fun _ _ _ => True) (sessions
    [Desk.call (.ok "first"), .tick (abandonedAfter + 1), Desk.call (.ok "second")] Desk.none')
    [0, 0, 1, 2, 2, 2, 2, 0] (fun q => Desk.said q 2 "second" = true ∧
      answerOf (1, "retry") q.store = some "first") (by decide +kernel)
  obtain ⟨view, m, hdone⟩ := Desk.done_of_said hsaid
  have := h _ _ trace q run 2 1 "retry" "checkout" (.ok "second") view "second" m rfl (by decide) hdone
  rw [hother] at this
  exact absurd this (by decide)

end FastKit.Idempotency
