import FastKit.Accounts.Segments

/-! # A letter proves the address it was written to

The token of a letter stands in a row, in what sessions keep of it, in the letter itself and
in what was answered of it. Wherever one token stands it is of one account and one address, as
an address is only moved in the commit that takes the token away.
-/

namespace FastKit.Accounts
open Transaction Transaction.Program

variable {c : Setup} {m m' : Memory} {s t : Store} {row row' : User} {q r : Sessions} {i j : ℕ}
  {calls : List Call} {l k : List (Turn Store)} {ok : Sessions → ℕ → Sessions → Prop}
  {token : ℕ} {account account' : Option ℕ} {address address' : Option String}

/-- Whose address the token of a letter proves, by the rows and the letters of a store. -/
inductive Proves (s : Store) : ℕ → Option ℕ → Option String → Prop where
  | row {row : User} {token : ℕ} (found : row ∈ s.users)
      (current : row.confirmationToken = some token) : Proves s token (some row.id) row.awaited
  | letter {letter : Letter} {token : ℕ} (sent : letter ∈ s.letters)
      (confirms : letter.confirms = true) (carries : letter.token = some token) :
      Proves s token letter.userId letter.address

/-- The tokens of a store were drawn, and each proves one address of one account. -/
structure Addressed (s : Store) : Prop where
  drawn : ∀ {token account address}, Proves s token account address → token < s.drawn
  agree : ∀ {token account account' address address'}, Proves s token account address →
    Proves s token account' address' → account = account' ∧ address = address'

def accepted (q : Sessions) (i : ℕ) : Option Answered :=
  match q.sessions[i]? with
  | some (.pause m _ _ _) => m.answered
  | some (.done _ (.ok (_, m))) => m.answered
  | _ => none

theorem accepted_of_memory (h : q.memory i = some m) : accepted q i = m.answered := by
  obtain ⟨o, ho, hm⟩ := Option.bind_eq_some_iff.mp h
  unfold accepted
  rw [ho]
  cases o with
  | done view result => cases hm
  | pause memory view ready next =>
    obtain rfl := Option.some.inj hm
    rfl

/-- The same, by what the sessions keep and answered too. -/
inductive Names (q : Sessions) : ℕ → Option ℕ → Option String → Prop where
  | stored {token : ℕ} {account : Option ℕ} {address : Option String}
      (proves : Proves q.store token account address) : Names q token account address
  | copied {i : ℕ} {m : Memory} {user : User} {token : ℕ} (waits : q.memory i = some m)
      (recalled : user ∈ m.account) (current : user.confirmationToken = some token) :
      Names q token (some user.id) user.awaited
  | answered {i : ℕ} {answer : Answered} (accepts : accepted q i = some answer) :
      Names q answer.token (some answer.account) answer.address

/-- A row that has a token after a segment had it before, with its address, or has a new one. -/
theorem Writes.letter (w : Writes m s m' t) (hrow : row' ∈ t.users)
    (ht : row'.confirmationToken = some token) :
    (∃ row ∈ s.users, row.confirmationToken = some token ∧ row.id = row'.id ∧
      row.awaited = row'.awaited) ∨ (s.drawn ≤ token ∧ token < t.drawn) := by
  rcases w.back hrow with hmem | ⟨row, hmem, change⟩ | adds
  · exact .inl ⟨row', hmem, ht, rfl, rfl⟩
  · rcases change.letter ht with ⟨hbefore, hsame⟩ | hfresh
    · exact .inl ⟨row, hmem, hbefore, change.id.symm, hsame.symm⟩
    · exact .inr hfresh
  · rw [adds.quiet] at ht
    cases ht

structure Told (q : Sessions) : Prop where
  drawn : ∀ {token account address}, Names q token account address → token < q.store.drawn
  agree : ∀ {token account account' address address'}, Names q token account address →
    Names q token account' address' → account = account' ∧ address = address'
  gone : ∀ i answer, accepted q i = some answer → ∀ row ∈ q.store.users,
    row.confirmationToken ≠ some answer.token
  once : ∀ i j answer answer', accepted q i = some answer → accepted q j = some answer' →
    answer.token = answer'.token → i = j

/-- A new token is one row's. -/
theorem Writes.alone (w : Writes m s m' t) (hdrawn : ∀ row ∈ s.users, ∀ token ∈ row.confirmationToken,
    token < s.drawn) (hrow : row ∈ t.users) (hrow' : row' ∈ t.users)
    (ht : row.confirmationToken = some token) (ht' : row'.confirmationToken = some token)
    (hfresh : s.drawn ≤ token) : row = row' := by
  obtain ⟨id, hone⟩ := w.one
  have hid : ∀ u ∈ t.users, u.confirmationToken = some token → u.id = id := by
    intro u hu hut
    rcases hone u hu with hmem | ⟨hid, -⟩ | adds
    · exact absurd (hdrawn u hmem token hut) (not_lt.mpr hfresh)
    · exact hid
    · rw [adds.quiet] at hut
      cases hut
  exact Table.eq_of_id hrow hrow' ((hid row hrow ht).trans (hid row' hrow' ht').symm)

/-- A letter that confirms was there, or is written from what its session recalled. -/
theorem Writes.sent (w : Writes m s m' t) {letter : Letter} (hl : letter ∈ t.letters)
    (hc : letter.confirms = true) : letter ∈ s.letters ∨ ∃ user ∈ m.account,
      letter.userId = some user.id ∧ letter.address = user.awaited ∧
      letter.token = user.confirmationToken := by
  cases w with
  | kept _ _ letters _ => exact .inl (letters ▸ hl)
  | wrote _ rewrites _ => exact .inl (rewrites.letters ▸ hl)
  | answered _ _ _ _ rewrites _ _ => exact .inl (rewrites.letters ▸ hl)
  | added _ adds => exact .inl (adds.letters ▸ hl)
  | posted _ proves _ letters _ =>
    rw [letters, List.mem_append, List.mem_singleton] at hl
    rcases hl with hl | rfl
    · exact .inl hl
    · exact .inr (proves hc)

/-- A letter is answered by a row that awaits it, which has the address and not the token after. -/
theorem Writes.answers (w : Writes m s m' t) {answer : Answered} (h : m'.answered = some answer) :
    m.answered = some answer ∨ ∃ row ∈ s.users, ∃ row' ∈ t.users, row'.id = row.id ∧
      awaiting row = true ∧ row.confirmationToken = some answer.token ∧ answer.account = row.id ∧
      answer.address = row.awaited ∧ row'.email = row.awaited ∧ row'.confirmationToken = none := by
  cases w with
  | kept recalls _ _ _ => exact .inl (recalls.answered.symm.trans h)
  | wrote recalls _ _ => exact .inl (recalls.answered.symm.trans h)
  | added recalls _ => exact .inl (recalls.answered.symm.trans h)
  | posted recalls _ _ _ _ => exact .inl (recalls.answered.symm.trans h)
  | @answered _ _ _ row token forgets found waits current rewrites _ answers =>
    obtain rfl := Option.some.inj (answers.symm.trans h)
    refine .inr ⟨row, found, confirmed forgets row, (rewrites.rows _).mpr ⟨row, found, ?_⟩, rfl, waits,
      current, rfl, rfl, rfl, rfl⟩
    rw [if_pos (beq_self_eq_true row.id)]

theorem accepted_others (turn : Pool.Stepped Writes (Closing calls) q i r) (hj : j ≠ i) :
    accepted r j = accepted q j := by
  rw [accepted, accepted, turn.others j hj]

/-- What a call answered as it ended it had answered before. -/
theorem accepted_ended (turn : Pool.Stepped Writes (Closing calls) q i r) {view : Store}
    {result : Except Fault (Option User × Memory)} (hend : r.sessions[i]? = some (.done view result))
    (hm : q.memory i = some m) {b : Store} (hpost : Closing calls i m result b view)
    {answer : Answered} (h : accepted r j = some answer) : accepted q j = some answer := by
  by_cases hj : j = i
  · subst hj
    unfold accepted at h
    rw [hend] at h
    cases result with
    | error e => cases h
    | ok a =>
      obtain ⟨_, -, hclose⟩ := hpost
      rw [accepted_of_memory hm, ← hclose.answered]
      exact h
  · rwa [accepted_others turn hj] at h

/-- What is named after a turn was named before it, or is a new token of a row. -/
theorem Names.turn (h : Names r token account address)
    (turn : Pool.Stepped Writes (Closing calls) q i r) : Names q token account address ∨
      ((q.store.drawn ≤ token ∧ token < r.store.drawn) ∧ ∃ row ∈ r.store.users,
        row.confirmationToken = some token ∧ account = some row.id ∧ address = row.awaited) := by
  obtain ⟨m, hm, hstep⟩ := turn.step
  rcases hstep with ⟨view, result, hend, hsame, hpost⟩ | ⟨m', hm', w⟩
  · refine .inl ?_
    cases h with
    | stored proves => exact .stored (hsame ▸ proves)
    | copied waits recalled current => exact .copied (turn.memory_ended hend waits) recalled current
    | answered accepts => exact .answered (accepted_ended turn hend hm hpost accepts)
  · -- a row of the store after the turn
    have hrows : ∀ row ∈ r.store.users, ∀ token, row.confirmationToken = some token →
        Names q token (some row.id) row.awaited ∨
        ((q.store.drawn ≤ token ∧ token < r.store.drawn) ∧ ∃ row' ∈ r.store.users,
          row'.confirmationToken = some token ∧ some row.id = some row'.id ∧
          row.awaited = row'.awaited) := by
      intro row hrow token ht
      rcases w.letter hrow ht with ⟨before, hbefore, htb, hid, ha⟩ | hfresh
      · rw [← hid, ← ha]
        exact .inl (.stored (.row hbefore htb))
      · exact .inr ⟨hfresh, row, hrow, ht, rfl, rfl⟩
    cases h with
    | stored proves =>
      cases proves with
      | row found current => exact hrows _ found _ current
      | letter sent confirms carries =>
        rcases w.sent sent confirms with hbefore | ⟨user, hu, hid, ha, ht⟩
        · exact .inl (.stored (.letter hbefore confirms carries))
        · rw [hid, ha]
          exact .inl (.copied hm hu (ht.symm.trans carries))
    | @copied j k user token waits recalled current =>
      by_cases hj : j = i
      · rw [hj, hm'] at waits
        obtain rfl := Option.some.inj waits
        rcases w.recalls recalled with hmem | hmem | hmem
        · exact .inl (.stored (.row hmem current))
        · exact hrows _ hmem _ current
        · exact .inl (.copied hm hmem current)
      · exact .inl (.copied ((turn.memory_others hj).symm.trans waits) recalled current)
    | @answered j answer accepts =>
      by_cases hj : j = i
      · rw [hj, accepted_of_memory hm'] at accepts
        rcases w.answers accepts with hbefore | ⟨row, hrow, -, -, -, -, ht, hid, ha, -⟩
        · exact .inl (.answered ((accepted_of_memory hm).trans hbefore))
        · rw [hid, ha]
          exact .inl (.stored (.row hrow ht))
      · exact .inl (.answered ((accepted_others turn hj).symm.trans accepts))

/-- A letter that is answered was answered before the turn, or is in it by the row that held it. -/
theorem accepted_turn (turn : Pool.Stepped Writes (Closing calls) q i r) {answer : Answered}
    (h : accepted r j = some answer) : accepted q j = some answer ∨ (j = i ∧
      ∃ row ∈ q.store.users, ∃ row' ∈ r.store.users, row'.id = row.id ∧ awaiting row = true ∧
        row.confirmationToken = some answer.token ∧ answer.account = row.id ∧
        answer.address = row.awaited ∧ row'.email = row.awaited ∧ row'.confirmationToken = none) := by
  obtain ⟨m, hm, hstep⟩ := turn.step
  rcases hstep with ⟨view, result, hend, -, hpost⟩ | ⟨m', hm', w⟩
  · exact .inl (accepted_ended turn hend hm hpost h)
  · by_cases hj : j = i
    · rw [hj, accepted_of_memory hm'] at h
      rw [hj, accepted_of_memory hm]
      exact (w.answers h).imp_right fun hnew => ⟨rfl, hnew⟩
    · exact .inl ((accepted_others turn hj).symm.trans h)

theorem Told.turn (h : Told q) (turn : Pool.Stepped Writes (Closing calls) q i r) : Told r := by
  have hrows : ∀ row ∈ q.store.users, ∀ token ∈ row.confirmationToken, token < q.store.drawn :=
    fun row hrow token ht => h.drawn (.stored (.row hrow ht))
  obtain ⟨m, hm, hstep⟩ := id turn.step
  rcases hstep with ⟨view, result, hend, hsame, hpost⟩ | ⟨m', hm', w⟩
  · have hback : ∀ {token account address}, Names r token account address →
        Names q token account address := by
      intro token account address hn
      rcases hn.turn turn with hn | ⟨⟨hlow, hhigh⟩, -⟩
      · exact hn
      · rw [hsame] at hhigh
        omega
    refine ⟨fun hn => hsame ▸ h.drawn (hback hn), fun hn hn' => h.agree (hback hn) (hback hn'),
      fun j answer ha => ?_, fun j k answer answer' ha ha' => ?_⟩
    · rw [hsame]
      exact h.gone j answer (accepted_ended turn hend hm hpost ha)
    · exact h.once j k answer answer' (accepted_ended turn hend hm hpost ha)
        (accepted_ended turn hend hm hpost ha')
  · refine ⟨fun hn => ?_, fun hn hn' => ?_, ?_, ?_⟩
    · rcases hn.turn turn with hn | ⟨⟨-, hhigh⟩, -⟩
      · exact (h.drawn hn).trans_le w.drawn
      · exact hhigh
    · rcases hn.turn turn with hn | ⟨⟨hlow, -⟩, row, hrow, ht, rfl, rfl⟩
      · rcases hn'.turn turn with hn' | ⟨⟨hlow, -⟩, -⟩
        · exact h.agree hn hn'
        · exact absurd (h.drawn hn) (not_lt.mpr hlow)
      · rcases hn'.turn turn with hn' | ⟨-, row', hrow', ht', rfl, rfl⟩
        · exact absurd (h.drawn hn') (not_lt.mpr hlow)
        · obtain rfl := w.alone hrows hrow hrow' ht ht' hlow
          exact ⟨rfl, rfl⟩
    · intro j answer ha row' hrow' ht'
      rcases accepted_turn turn ha with ha | ⟨-, row, hrow, now, hnow, hid, -, ht, -, -, -, hnone⟩
      · rcases w.letter hrow' ht' with ⟨before, hbefore, htb, -⟩ | ⟨hlow, -⟩
        · exact h.gone j answer ha before hbefore htb
        · exact absurd (h.drawn (.answered ha)) (not_lt.mpr hlow)
      · rcases w.letter hrow' ht' with ⟨before, hbefore, htb, hsame, -⟩ | ⟨hlow, -⟩
        · -- the row that was answered is the one that held the token, and has none now
          have hrow := (h.agree (.stored (.row hbefore htb)) (.stored (.row hrow ht))).1
          obtain rfl := Table.eq_of_id hrow' hnow
            (hsame.symm.trans ((Option.some.inj hrow).trans hid.symm))
          rw [hnone] at ht'
          cases ht'
        · exact absurd (hrows row hrow _ ht) (not_lt.mpr hlow)
    · intro j k answer answer' ha ha' htoken
      rcases accepted_turn turn ha with ha | ⟨hj, row, hrow, -, -, -, -, ht, -⟩
      · rcases accepted_turn turn ha' with ha' | ⟨-, row, hrow, -, -, -, -, ht, -⟩
        · exact h.once j k answer answer' ha ha' htoken
        · exact absurd (htoken ▸ ht) (h.gone j answer ha row hrow)
      · rcases accepted_turn turn ha' with ha' | ⟨hk, -⟩
        · exact absurd (htoken ▸ ht) (h.gone k answer' ha' row hrow)
        · exact hj.trans hk.symm

theorem told_start (hs : Addressed s) : Told (sessions c calls s) := by
  have hmemory : ∀ i m, (sessions c calls s).memory i = some m → m = Memory.empty := by
    intro i m hm
    obtain ⟨_, _, rfl⟩ := Pool.memory_sessions hm
    rfl
  have hnone : ∀ i, accepted (sessions c calls s) i = none := by
    intro i
    unfold accepted
    cases h : (sessions c calls s).sessions[i]? with
    | none => rfl
    | some o =>
      simp only [sessions, List.getElem?_map, Option.map_eq_some_iff] at h
      obtain ⟨call, -, rfl⟩ := h
      rfl
  have hstored : ∀ {token account address}, Names (sessions c calls s) token account address →
      Proves s token account address := by
    intro token account address h
    cases h with
    | stored proves => exact proves
    | copied waits recalled =>
      rw [hmemory _ _ waits] at recalled
      cases recalled
    | answered accepts =>
      rw [hnone] at accepts
      cases accepts
  exact ⟨fun h => hs.drawn (hstored h), fun h h' => hs.agree (hstored h) (hstored h'),
    by simp [hnone], by simp [hnone]⟩

theorem run_told (hs : Addressed s) (run : Pool.Run ok (sessions c calls s) l q) : Told q :=
  run.invariant (stepping_serve calls s) (told_start hs) fun _ _ _ _ turn h => h.turn turn

/-- Who has the token of a letter is the account it was drawn for. -/
structure Owned (id token : ℕ) (s : Store) : Prop where
  drawn : token < s.drawn
  alone : ∀ row ∈ s.users, row.confirmationToken = some token → row.id = id

theorem Owned.step {id : ℕ} (h : Owned id token s) (w : Writes m s m' t) : Owned id token t := by
  refine ⟨h.drawn.trans_le w.drawn, fun row' hrow' ht => ?_⟩
  rcases w.letter hrow' ht with ⟨row, hrow, hbefore, hid, -⟩ | ⟨hlow, -⟩
  · exact hid.symm.trans (h.alone row hrow hbefore)
  · exact absurd h.drawn (not_lt.mpr hlow)

/-- A token that no account has anymore. -/
structure Gone (token : ℕ) (s : Store) : Prop where
  drawn : token < s.drawn
  nobody : ∀ row ∈ s.users, row.confirmationToken ≠ some token

theorem Gone.step (h : Gone token s) (w : Writes m s m' t) : Gone token t := by
  refine ⟨h.drawn.trans_le w.drawn, fun row' hrow' ht => ?_⟩
  rcases w.letter hrow' ht with ⟨row, hrow, hbefore, -⟩ | ⟨hlow, -⟩
  · exact h.nobody row hrow hbefore
  · exact absurd h.drawn (not_lt.mpr hlow)

/-- A token that is gone is answered by nobody anymore. -/
theorem run_gone (run : Pool.Run ok (sessions c calls s) l q) (more : Pool.Run ok q k r)
    (h : Gone token q.store) {answer : Answered} (ha : accepted r i = some answer)
    (ht : answer.token = token) : accepted q i = some answer := by
  induction more with
  | start => exact ha
  | turn j past taken _ ih =>
    rcases accepted_turn ((run.append past).stepped (stepping_serve calls s) taken) ha with
      hbefore | ⟨-, row, hrow, -, -, -, -, hcurrent, -⟩
    · exact ih hbefore
    · have hgone := run_keeps run past (fun w h => h.step w) h
      exact absurd (ht ▸ hcurrent) (hgone.nobody row hrow)

/-- Every confirmation that ended well answered the letter of its token. -/
def Confirmed (calls : List Call) (q : Sessions) : Prop :=
  ∀ (i : ℕ) (tenantId : Option ℕ) (token : ℕ) (view : Store) (o : Option User) (m : Memory),
    calls[i]? = some (.confirmSignUp tenantId token) →
    q.sessions[i]? = some (.done view (.ok (o, m))) → ∃ answer ∈ m.answered, answer.token = token

theorem Confirmed.turn (h : Confirmed calls q)
    (turn : Pool.Stepped Writes (Closing calls) q i r) : Confirmed calls r := by
  intro j tenantId token view o k hcall hdone
  obtain ⟨m, hm, hstep⟩ := turn.step
  by_cases hj : j = i
  · subst hj
    rcases hstep with ⟨view', result, hend, -, hpost⟩ | ⟨m', hm', -⟩
    · obtain ⟨-, rfl⟩ := Outcome.done.inj (Option.some.inj (hend.symm.trans hdone))
      obtain ⟨call, hcall', hclose⟩ := hpost
      exact hclose.confirms tenantId token (Option.some.inj (hcall'.symm.trans hcall))
    · rw [Pool.memory, hdone] at hm'
      cases hm'
  · exact h j tenantId token view o k hcall ((turn.others j hj).symm.trans hdone)

theorem run_confirmed (run : Pool.Run ok (sessions c calls s) l q) : Confirmed calls q := by
  refine run.invariant (stepping_serve calls s) ?_ fun _ _ _ _ turn h => h.turn turn
  intro i tenantId token view o m _ hdone
  simp [sessions, session] at hdone

/-- In every run of the calls: no two confirmations answer one token; a confirmation that ended
well answered its own; a token is answered where the account has it, which has the address
after and not the token; every letter of that token was written to that account and that
address; and once the account has the token no more, nobody answers it. -/
theorem confirmation_proves_address {calls : List Call} {s : Store} (hs : Addressed s)
    (run : Pool.Run ok (sessions c calls s) l q) :
    (∀ i j a b, accepted q i = some a → accepted q j = some b → a.token = b.token → i = j) ∧
    (∀ (i : ℕ) (tenantId : Option ℕ) (token : ℕ) (view : Store) (o : Option User) (m : Memory),
      calls[i]? = some (.confirmSignUp tenantId token) → q.sessions[i]? = some (.done view (.ok (o, m))) →
      ∃ a, accepted q i = some a ∧ a.token = token) ∧
    (∀ i r a, q.turn i = some r → accepted r i = some a → accepted q i = some a ∨
      ∃ row ∈ q.store.users, ∃ row' ∈ r.store.users, row'.id = row.id ∧ a.account = row.id ∧
        row.confirmationToken = some a.token ∧ row.awaited = a.address ∧ row'.email = a.address ∧
        row'.confirmationToken = none) ∧
    (∀ i a, accepted q i = some a → ∀ letter ∈ q.store.letters, letter.confirms = true →
      letter.token = some a.token → letter.userId = some a.account ∧ letter.address = a.address) ∧
    ∀ k r, Pool.Run ok q k r → ∀ row ∈ q.store.users, ∀ token ∈ row.confirmationToken,
      ∀ row' ∈ r.store.users, row'.id = row.id → row'.confirmationToken ≠ some token →
      ∀ k' r', Pool.Run ok r k' r' → ∀ i a, accepted r' i = some a → a.token = token →
        accepted r i = some a := by
  have htold := run_told hs run
  refine ⟨fun i j a b => htold.once i j a b, ?_, ?_, ?_, ?_⟩
  · intro i tenantId token view o m hcall hdone
    obtain ⟨a, ha, htoken⟩ := run_confirmed run i tenantId token view o m hcall hdone
    refine ⟨a, ?_, htoken⟩
    unfold accepted
    rw [hdone]
    exact ha
  · intro i r a taken ha
    rcases accepted_turn (run.stepped (stepping_serve calls s) taken) ha with
      hbefore | ⟨-, row, hrow, row', hrow', hid, -, ht, hacc, haddr, hemail, hnone⟩
    · exact .inl hbefore
    · exact .inr ⟨row, hrow, row', hrow', hid, hacc, ht, haddr.symm, hemail.trans haddr.symm, hnone⟩
  · intro i a ha letter hl hc ht
    exact htold.agree (.stored (.letter hl hc ht)) (.answered ha)
  · intro k r more row hrow token ht row' hrow' hid hne k' r' later i a ha htoken
    have howned : Owned row.id token q.store := ⟨htold.drawn (.stored (.row hrow ht)),
      fun other hother hto => Option.some.inj
        (htold.agree (.stored (.row hother hto)) (.stored (.row hrow ht))).1⟩
    have hafter := run_keeps run more (fun w h => h.step w) howned
    have hgone : Gone token r.store := by
      refine ⟨hafter.drawn, fun other hother hto => hne ?_⟩
      rwa [Table.eq_of_id hrow' hother (hid.trans (hafter.alone other hother hto).symm)]
    exact run_gone (run.append more) later hgone ha htoken

namespace Desk

theorem addressed_nobody : Addressed nobody := by
  have hnone : ∀ {token account address}, ¬Proves nobody token account address := by
    intro token account address h
    cases h with
    | row found => exact absurd found Table.not_mem_empty
    | letter sent => exact absurd sent List.not_mem_nil
  exact ⟨fun h => absurd h hnone, fun h => absurd h hnone⟩

/-- Who signs up with an address. -/
def signUp : SignUpRequest := ⟨⟨none, some (some "reader@site"), none, none⟩, "secret"⟩

end Desk

/-- Somebody signs up and answers the letter. -/
theorem confirmation_proves_address_once : ∃ trace q, Pool.Run (fun _ _ _ => True)
    (sessions (Desk.setup []) [.register none Desk.signUp, .confirmSignUp none 2] Desk.nobody) trace q ∧
    accepted q 1 = some ⟨2, 0, some "reader@site"⟩ ∧ q.store.letters ≠ [] ∧
    ∀ letter ∈ q.store.letters, letter.confirms = true → letter.token = some 2 →
      letter.userId = some 0 ∧ letter.address = some "reader@site" := by
  obtain ⟨trace, q, run, haccepted, hletters⟩ := Pool.exists_run (fun _ _ _ => True)
    (sessions (Desk.setup []) [.register none Desk.signUp, .confirmSignUp none 2] Desk.nobody)
    [0, 0, 0, 0, 0, 1, 1, 1] (fun q => accepted q 1 = some ⟨2, 0, some "reader@site"⟩ ∧
      q.store.letters ≠ []) (by decide +kernel)
  exact ⟨trace, q, run, haccepted, hletters,
    (confirmation_proves_address Desk.addressed_nobody run).2.2.2.1 1 _ haccepted⟩

end FastKit.Accounts
