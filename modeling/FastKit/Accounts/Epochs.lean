import FastKit.Accounts.Segments

/-! # A new password ends the sessions before it

A session token names the token and the epoch of an account. A row keeps its token only with an
epoch that never falls and rises with every new password, and a token that was replaced is
nobody's again.
-/

namespace FastKit.Accounts
open Transaction Transaction.Program

variable {c : Setup} {m m' : Memory} {s t : Store} {row row' user : User} {q r : Sessions}
  {calls : List Call} {l k : List (Turn Store)} {ok : Sessions → ℕ → Sessions → Prop}

/-- Every account has a token that was drawn. -/
def Drawn (s : Store) : Prop := ∀ row ∈ s.users, row.token < s.drawn

theorem Drawn.step (h : Drawn s) (w : Writes m s m' t) : Drawn t := by
  intro row' hrow'
  rcases w.back hrow' with hmem | ⟨row, hmem, change⟩ | adds
  · exact (h row' hmem).trans_le w.drawn
  · rcases change.epoch with ⟨htoken, -⟩ | ⟨-, high⟩
    · rw [htoken]
      exact (h row hmem).trans_le w.drawn
    · exact high
  · exact adds.high

/-- An account as it was: who has its token now is it, at that epoch or a later one. -/
structure Past (user : User) (s : Store) : Prop where
  drawn : user.token < s.drawn
  since : ∀ row ∈ s.users, row.token = user.token →
    row.id = user.id ∧ user.sessionEpoch ≤ row.sessionEpoch

theorem past_of_mem (h : Drawn s) (hu : user ∈ s.users) : Past user s := by
  refine ⟨h user hu, fun row hrow htoken => ?_⟩
  have hkey : UserKey.token user.token ∈ Keyed.keys row := by
    rw [← htoken]
    exact List.mem_cons_self
  obtain rfl := Table.eq_of_key hrow hu hkey List.mem_cons_self
  exact ⟨rfl, le_rfl⟩

theorem Past.step (h : Past user s) (w : Writes m s m' t) : Past user t := by
  refine ⟨h.drawn.trans_le w.drawn, fun row' hrow' htoken => ?_⟩
  rcases w.back hrow' with hmem | ⟨row, hmem, change⟩ | adds
  · exact h.since row' hmem htoken
  · rcases change.epoch with ⟨hsame, hle, -⟩ | ⟨low, -⟩
    · obtain ⟨hid, hepoch⟩ := h.since row hmem (hsame.symm.trans htoken)
      exact ⟨change.id.trans hid, hepoch.trans hle⟩
    · exact absurd h.drawn (not_lt.mpr (htoken ▸ low))
  · exact absurd h.drawn (not_lt.mpr (htoken ▸ adds.low))

/-- An account as it was before a new password. -/
structure Ended (user : User) (s : Store) : Prop where
  drawn : user.token < s.drawn
  since : ∀ row ∈ s.users, row.token = user.token → user.sessionEpoch < row.sessionEpoch

theorem Ended.step (h : Ended user s) (w : Writes m s m' t) : Ended user t := by
  refine ⟨h.drawn.trans_le w.drawn, fun row' hrow' htoken => ?_⟩
  rcases w.back hrow' with hmem | ⟨row, hmem, change⟩ | adds
  · exact h.since row' hmem htoken
  · rcases change.epoch with ⟨hsame, hle, -⟩ | ⟨low, -⟩
    · exact (h.since row hmem (hsame.symm.trans htoken)).trans_le hle
    · exact absurd h.drawn (not_lt.mpr (htoken ▸ low))
  · exact absurd h.drawn (not_lt.mpr (htoken ▸ adds.low))

/-- A segment that leaves the account with another password ends what it was before. -/
theorem Past.ends (h : Past user s) (w : Writes m s m' t) (hrow : row ∈ s.users)
    (hrow' : row' ∈ t.users) (hid : row.id = user.id) (hid' : row'.id = user.id)
    (hhash : row'.passwordHash ≠ row.passwordHash) : Ended user t := by
  refine ⟨h.drawn.trans_le w.drawn, fun now hnow htoken => ?_⟩
  rcases w.back hnow with hmem | ⟨before, hmem, change⟩ | adds
  · -- the row that has the token was not written, so it is no other than the account's
    obtain ⟨hsame, -⟩ := h.since now hmem htoken
    obtain rfl : now = row := Table.eq_of_id hmem hrow (hsame.trans hid.symm)
    obtain rfl : row' = now := Table.eq_of_id hrow' hnow (hid'.trans hid.symm)
    exact absurd rfl hhash
  · rcases change.epoch with ⟨hsame, -, hrises⟩ | ⟨low, -⟩
    · obtain ⟨hbefore, hle⟩ := h.since before hmem (hsame.symm.trans htoken)
      obtain rfl : before = row := Table.eq_of_id hmem hrow (hbefore.trans hid.symm)
      obtain rfl : row' = now := Table.eq_of_id hrow' hnow (hid'.trans (change.id.trans hid).symm)
      exact hle.trans_lt (hrises hhash)
    · exact absurd h.drawn (not_lt.mpr (htoken ▸ low))
  · exact absurd h.drawn (not_lt.mpr (htoken ▸ adds.low))

/-- What an ended account was opens no session. -/
theorem Ended.refused (h : Ended user s) (opened : User) :
    loadUser (createToken user) s ≠ .ok opened := by
  unfold loadUser
  cases hfound : s.users.find (·.token == (createToken user).sub) with
  | none => simp
  | some row =>
    have htoken : row.token = user.token := by simpa [createToken] using Table.find_holds hfound
    have hlt := h.since row (Table.mem_of_find hfound) htoken
    have hne : (createToken user).epoch ≠ row.sessionEpoch := hlt.ne
    dsimp only
    rw [if_pos hne]
    split_ifs <;> simp

/-- The account a call answered, which a session token was minted of. -/
def answer (q : Sessions) (i : ℕ) : Option User :=
  match q.sessions[i]? with
  | some (.done _ (.ok (o, _))) => o
  | _ => none

theorem answer_eq_some {i : ℕ} (h : answer q i = some user) :
    ∃ view m, q.sessions[i]? = some (.done view (.ok (some user, m))) := by
  unfold answer at h
  split at h
  · rename_i view o m hq
    exact ⟨view, m, h ▸ hq⟩
  · cases h

/-- An account that is stored, or that a call answered. -/
def Minted (q : Sessions) (user : User) : Prop := user ∈ q.store.users ∨ ∃ i, answer q i = some user

structure Dated (q : Sessions) : Prop where
  drawn : Drawn q.store
  recalled : ∀ i m, q.memory i = some m → ∀ u ∈ m.account, Past u q.store
  answered : ∀ i u, answer q i = some u → Past u q.store

/-- A turn moves the store by a write, and what the sessions keep and answer with it. -/
theorem Dated.turn {i : ℕ} (h : Dated q) (turn : Pool.Stepped Writes (Closing calls) q i r) :
    Dated r := by
  obtain ⟨m, hm, hstep⟩ := turn.step
  have hanswer : ∀ j, j ≠ i → answer r j = answer q j := fun j hj => by
    rw [answer, answer, turn.others j hj]
  rcases hstep with ⟨view, result, hend, hsame, hpost⟩ | ⟨m', hm', w⟩
  · refine ⟨hsame ▸ h.drawn, fun j k hj => hsame ▸ h.recalled j k (turn.memory_ended hend hj), ?_⟩
    intro j u hu
    rw [hsame]
    by_cases hji : j = i
    · subst hji
      obtain ⟨_, k, hdone⟩ := answer_eq_some hu
      obtain ⟨rfl, rfl⟩ := Outcome.done.inj (Option.some.inj (hend.symm.trans hdone))
      obtain ⟨_, -, hclose⟩ := hpost
      rcases hclose.gives u rfl with hu | hu
      · exact past_of_mem h.drawn hu
      · exact h.recalled j m hm u hu
    · exact h.answered j u ((hanswer j hji).symm.trans hu)
  · have hdrawn := h.drawn.step w
    refine ⟨hdrawn, fun j k hj u hu => ?_, fun j u hu => ?_⟩
    · by_cases hji : j = i
      · rw [hji, hm'] at hj
        obtain rfl := Option.some.inj hj
        rcases w.recalls hu with hu | hu | hu
        · exact (past_of_mem h.drawn hu).step w
        · exact past_of_mem hdrawn hu
        · exact (h.recalled i m hm u hu).step w
      · exact (h.recalled j k ((turn.memory_others hji).symm.trans hj) u hu).step w
    · by_cases hji : j = i
      · subst hji
        obtain ⟨_, _, hdone⟩ := answer_eq_some hu
        rw [Pool.memory, hdone] at hm'
        cases hm'
      · exact (h.answered j u ((hanswer j hji).symm.trans hu)).step w

theorem dated_start (hs : Drawn s) : Dated (sessions c calls s) := by
  refine ⟨hs, fun i m hm u hu => ?_, fun i u hu => ?_⟩
  · obtain ⟨_, _, rfl⟩ := Pool.memory_sessions hm
    cases hu
  · obtain ⟨_, _, hdone⟩ := answer_eq_some hu
    simp [sessions, session] at hdone

theorem run_dated (hs : Drawn s) (run : Pool.Run ok (sessions c calls s) l q) : Dated q :=
  run.invariant (stepping_serve calls s) (dated_start hs) fun _ _ _ _ turn h => h.turn turn

/-- Every turn of a run keeps the accounts, and one that leaves an account with another password
raises its epoch or gives it another token. -/
theorem run_rehashes (hs : Drawn s) (run : Pool.Run ok (sessions c calls s) l q) : ∀ turn ∈ l,
    ∀ row ∈ turn.before.users, ∃ row' ∈ turn.after.users, row'.id = row.id ∧
      (row'.passwordHash ≠ row.passwordHash →
        row.sessionEpoch < row'.sessionEpoch ∨ row'.token ≠ row.token) := by
  induction run with
  | start => exact fun _ h => absurd h List.not_mem_nil
  | @turn trace q r i past taken _ ih =>
    intro turn ht row hrow
    rcases List.mem_append.mp ht with ht | ht
    · exact ih turn ht row hrow
    obtain rfl := List.mem_singleton.mp ht
    rcases run_writes past taken with hsame | ⟨_, _, w⟩
    · exact ⟨row, hsame ▸ hrow, rfl, fun hne => absurd rfl hne⟩
    · obtain ⟨row', hrow', rfl | change⟩ := w.forth hrow
      · exact ⟨row', hrow', rfl, fun hne => absurd rfl hne⟩
      · refine ⟨row', hrow', change.id, fun hne => ?_⟩
        rcases change.epoch with ⟨-, -, hrises⟩ | ⟨low, -⟩
        · exact .inl (hrises hne)
        · exact .inr (((run_dated hs past).drawn row hrow).trans_le low).ne'

theorem Minted.past (h : Dated q) (hu : Minted q user) : Past user q.store := by
  rcases hu with hu | ⟨i, hi⟩
  · exact past_of_mem h.drawn hu
  · exact h.answered i user hi

/-- A turn of the run that leaves the account with another password ends what was before it. -/
theorem run_ends (run : Pool.Run ok (sessions c calls s) l q) (more : Pool.Run ok q k r)
    (h : Past user q.store) : ∀ turn ∈ k, ∀ row ∈ turn.before.users, ∀ row' ∈ turn.after.users,
      row.id = user.id → row'.id = user.id → row'.passwordHash ≠ row.passwordHash →
      Ended user r.store := by
  induction more with
  | start => exact fun _ h => absurd h List.not_mem_nil
  | @turn trace q' r' i past taken _ ih =>
    intro turn ht row hrow row' hrow' hid hid' hne
    rcases run_writes (run.append past) taken with hsame | ⟨_, _, w⟩
    · rcases List.mem_append.mp ht with ht | ht
      · rw [hsame]
        exact ih turn ht row hrow row' hrow' hid hid' hne
      · obtain rfl := List.mem_singleton.mp ht
        obtain rfl : row' = row := Table.eq_of_id (hsame ▸ hrow') hrow (hid'.trans hid.symm)
        exact absurd rfl hne
    · rcases List.mem_append.mp ht with ht | ht
      · exact (ih turn ht row hrow row' hrow' hid hid' hne).step w
      · obtain rfl := List.mem_singleton.mp ht
        exact (run_keeps run past (fun w hp => hp.step w) h).ends w hrow hrow' hid hid' hne

/-- In every run of the calls: a turn that leaves an account with another password raises its
session epoch or gives it another token; whoever has a token later has it at the same epoch or
a later one; and a session token minted before such a turn never loads the account after it. -/
theorem new_password_ends_sessions {calls : List Call} {s : Store} (hs : Drawn s)
    (run : Pool.Run ok (sessions c calls s) l q) (more : Pool.Run ok q k r) :
    (∀ turn ∈ l ++ k, ∀ row ∈ turn.before.users, ∃ row' ∈ turn.after.users, row'.id = row.id ∧
      (row'.passwordHash ≠ row.passwordHash →
        row.sessionEpoch < row'.sessionEpoch ∨ row'.token ≠ row.token)) ∧
    (∀ row ∈ q.store.users, ∀ row' ∈ r.store.users, row'.token = row.token →
      row'.id = row.id ∧ row.sessionEpoch ≤ row'.sessionEpoch) ∧
    ∀ user, Minted q user → ∀ turn ∈ k, ∀ row ∈ turn.before.users, ∀ row' ∈ turn.after.users,
      row.id = user.id → row'.id = user.id → row'.passwordHash ≠ row.passwordHash →
      ∀ opened, loadUser (createToken user) r.store ≠ .ok opened := by
  have hdated := run_dated hs run
  refine ⟨run_rehashes hs (run.append more), fun row hrow => ?_, ?_⟩
  · exact (run_keeps run more (fun w hp => hp.step w) (past_of_mem hdated.drawn hrow)).since
  · intro user hu turn ht row hrow row' hrow' hid hid' hne
    exact (run_ends run more (hu.past hdated) turn ht row hrow row' hrow' hid hid' hne).refused

theorem Desk.drawn_reader : Drawn (Desk.only Desk.reader rfl) := by
  intro row hrow
  obtain rfl := List.mem_singleton.mp hrow
  decide

/-- A password is changed after a session signed in with it. -/
theorem new_password_ends_sessions_once : ∃ q r user, Minted q user ∧
    user.token = 0 ∧ q.turn 1 = some r ∧
    (∀ opened, loadUser (createToken user) r.store ≠ .ok opened) := by
  obtain ⟨l, q, run, hanswer, row, hrow, hid, hhash, hturn⟩ := Pool.exists_run (fun _ _ _ => True)
    (sessions (Desk.setup []) [.authenticate none "reader" "secret", .changePassword 0 "secret" "new"]
      (Desk.only Desk.reader rfl)) [0, 0, 0, 1, 1]
    (fun q => (answer q 0).any (fun u => u.id == 0 && u.token == 0) = true ∧
      ∃ row ∈ q.store.users, row.id = 0 ∧ row.passwordHash = "#secret" ∧
        (q.turn 1).any (fun r => decide (∃ row ∈ r.store.users,
          row.id = 0 ∧ row.passwordHash = "#new")) = true) (by decide +kernel)
  obtain ⟨user, huser, hu⟩ := (Option.any_eq_true _ _).mp hanswer
  obtain ⟨r, hr, hrow'⟩ := (Option.any_eq_true _ _).mp hturn
  obtain ⟨row', hmem, hid', hhash'⟩ := of_decide_eq_true hrow'
  simp only [Bool.and_eq_true, beq_iff_eq] at hu
  refine ⟨q, r, user, .inr ⟨0, huser⟩, hu.2, hr, ?_⟩
  refine (new_password_ends_sessions Desk.drawn_reader run (.turn 1 .start hr trivial)).2.2 user
    (.inr ⟨0, huser⟩) ⟨1, q.store, r.store⟩ (List.mem_append_right _ (List.mem_singleton_self _))
    row hrow row' hmem (hid.trans hu.1.symm) (hid'.trans hu.1.symm) ?_
  rw [hhash, hhash']
  decide

end FastKit.Accounts
