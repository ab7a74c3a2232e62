import FastKit.Accounts.Writes

/-! # Every segment of a call is a write

One lemma for each service, and from them that the calls do nothing else to the accounts.
-/

namespace FastKit.Accounts
open Transaction Transaction.Program

variable {c : Setup} {g m m' : Memory} {b v s t : Store} {row user : User} {α β : Type}
  {gives : α → Option User} {gives' : β → Option User} {p p' : Db α}

theorem Writing.bind {f : α → Db β} (hp : Writing gives p) (hf : ∀ a, Writing gives' (f a)) :
    Writing gives' (p >>= f) := fun g m b v h =>
  (hp g m b v h).bind (fun _ a _ _ _ hk => hf a _ _ _ _ hk.1) fun _ _ _ _ _ => trivial

/-- What a program gives may be forgotten. -/
theorem Writing.none (hp : Writing gives p) : Writing₀ p := fun g m b v h => by
  refine (hp g m b v h).mono ?_
  rintro g (e | ⟨a, m⟩) b v hk
  · trivial
  · exact ⟨hk.1, by simp⟩

theorem writing_pure (a : α) : Writing₀ (pure a : Db α) := fun _ _ _ _ h => ⟨h, by simp⟩

theorem writing_raise (e : Fault) : Writing gives (raise e : Db α) := fun _ _ _ _ _ => trivial

theorem writing_query (f : Store → α) : Writing₀ (query f : Db α) := fun _ _ _ _ h => ⟨h, by simp⟩

theorem writing_execute (f : Store → Store) (hf : ∀ s, (f s).users = s.users ∧
    (f s).letters = s.letters ∧ s.drawn ≤ (f s).drawn) : Writing₀ (execute f : Db Unit) :=
  fun _ _ _ v h => ⟨h.view (hf v).1 (hf v).2.1 (hf v).2.2, by simp⟩

theorem writing_remember (f : Memory → Memory) (hf : ∀ m, (f m).answered = m.answered ∧
    (f m).account = m.account) : Writing₀ (remember f : Db Unit) :=
  fun _ m _ _ h => ⟨h.remember (hf m).1 (hf m).2, by simp⟩

theorem writing_require (e : Fault) (o : Option α) : Writing₀ (require e o : Db α) := by
  cases o with
  | none => exact writing_raise e
  | some a => exact writing_pure a

/-- What a check reads is no write. -/
theorem writing_reads (hp : p.Reads) : Writing₀ p := fun _ _ _ _ h =>
  hp.meets (fun _ => ⟨h, by simp⟩) fun _ => trivial

theorem writing_publish : Writing₀ (publish : Db Unit) := fun _ m _ _ h =>
  steps_publish.mpr ⟨h.writes, fun t => ⟨kept_refl m t, by simp⟩⟩

theorem writing_pass : Writing₀ pass := fun _ m _ _ h =>
  steps_yield.mpr ⟨h.yields, fun t => ⟨kept_refl m t, by simp⟩⟩

theorem writing_ite {P : Prop} [Decidable P] (hp : Writing gives p) (hp' : Writing gives p') :
    Writing gives (if P then p else p') := by
  split_ifs
  · exact hp
  · exact hp'

theorem writing_draw : Writing₀ draw := fun _ _ _ _ h => by
  simp only [draw, meets_bind, meets_query, meets_execute, meets_pure, ending_ok]
  exact ⟨h.view rfl rfl (Nat.le_succ _), by simp⟩

/-- An account that is read is recalled and given. -/
theorem getUser_writing (id : ℕ) : Writing some (getUser id) := fun g m b v h => by
  simp only [getUser, keepAccount, meets_bind, meets_query, ending_ok]
  cases hrow : v.users.get id with
  | none => trivial
  | some row =>
    have hmem : row ∈ v.users := Table.mem_of_get hrow
    refine ⟨h.keepAccount hmem, ?_⟩
    rintro _ ⟨⟩
    exact .inl (h.users ▸ hmem)

theorem refresh_meets (user : User) (h : Kept g m b v) : (refresh user).Meets (stepping Writes)
    (ending (fun g a b v => Kept g a.2 b v ∧ a.2.account = some a.1 ∧ a.1 ∈ b.users)
      fun _ _ _ _ => True) g m b v := by
  simp only [refresh, keepAccount, meets_bind, meets_query, ending_ok]
  cases hrow : v.users.get user.id with
  | none => trivial
  | some row =>
    have hmem : row ∈ v.users := Table.mem_of_get hrow
    exact ⟨h.keepAccount hmem, rfl, h.users ▸ hmem⟩

theorem refresh_writing (user : User) : Writing some (refresh user) := fun g m b v h => by
  refine (refresh_meets user h).mono ?_
  rintro g (e | ⟨row, m⟩) b v hk
  · trivial
  · refine ⟨hk.1, ?_⟩
    rintro _ ⟨⟩
    exact .inl hk.2.2

theorem moveIdentities_writing (id : ℕ) (tenantId : Option ℕ) :
    Writing₀ (moveIdentities id tenantId) :=
  (writing_query _).bind fun o => (writing_require _ o).bind fun _ =>
    writing_execute _ fun _ => ⟨rfl, rfl, le_rfl⟩

theorem validate_writing (data : UserData) (id : Option ℕ) : Writing₀ (validate c data id) := by
  -- the account that is there is read or not, and what follows is the same
  rcases id with _ | id
  on_goal 1 => refine (writing_pure _).bind fun instance' => ?_
  on_goal 2 => refine (writing_reads (hold_reads id)).bind fun row =>
    (writing_pure (some row)).bind fun instance' => ?_
  all_goals
    refine (writing_reads (ensureEachFree_reads _ _ _ _)).bind fun _ =>
      (writing_reads (ensureIdentity_reads _ _)).bind fun _ => ?_
    cases instance' with
    | none => exact writing_pure _
    | some row =>
      refine (writing_reads (ensureWayIn_reads _ _ _)).bind fun _ =>
        writing_ite (writing_pure _) ?_
      exact (moveIdentities_writing _ _).bind fun _ => writing_pure _

theorem hashOf_writing {vault : Vault} (password : Option String) :
    Writing₀ (hashOf vault password) := by
  unfold hashOf
  cases password.filter (· ≠ "") with
  | none => exact writing_pure _
  | some password => exact writing_draw.bind fun _ => writing_pure _

theorem stamped_quiet {d : UserData} (quiet : d.Quiet) (operator : Option ℕ) :
    (stamped d operator).Quiet := by
  cases operator with
  | none => exact quiet
  | some tenant => exact ⟨quiet.token, quiet.awaits⟩

theorem addUser_meets {make : ℕ → ℕ → User} (refused : Fault)
    (htoken : ∀ id token, (make id token).token = token)
    (hquiet : ∀ id token, (make id token).confirmationToken = none) (h : Kept g m b v) :
    (addUser make refused).Meets (stepping Writes)
      (ending (fun g a b v => Kept g a.2 b b ∧ Adds a.1 b v) fun _ _ _ _ => True) g m b v := by
  simp only [addUser, draw, meets_bind, meets_query, meets_execute, meets_pure, ending_ok]
  cases hins : v.users.insert (fun id => make id v.drawn) with
  | none => trivial
  | some found =>
    obtain ⟨user, users⟩ := found
    obtain ⟨rfl, -⟩ := Table.insert_eq_some hins
    refine ⟨⟨h.recalls, rfl, rfl, le_rfl⟩, ?_, ?_, hquiet _ _, fun row => ?_, h.letters⟩
    · rw [htoken]
      exact h.drawn
    · rw [htoken]
      exact Nat.lt_succ_self _
    · rw [← h.users]
      exact Table.mem_insert hins

theorem normalize_quiet {a : Alphabet} {d : UserData} (quiet : d.Quiet) : (normalize a d).Quiet :=
  ⟨quiet.token, quiet.awaits⟩

theorem createUser_writing {data : UserData} (quiet : data.Quiet) (operator : Option ℕ) :
    Writing some (createUser c data operator) := by
  have hquiet := normalize_quiet (a := c.alphabet) (stamped_quiet quiet operator)
  refine (validate_writing _ _).bind fun _ => (hashOf_writing _).bind fun o =>
    (writing_require _ o).bind fun hash => fun g m b v h => ?_
  refine (addUser_meets _ (fun _ _ => rfl) ?_ h).bind ?_ fun _ _ _ _ _ => trivial
  · intro id token
    rcases hquiet.token with ht | ht <;> simp [UserData.write, ht, born]
  · rintro g user m b v ⟨hk, adds⟩
    simp only [meets_bind, steps_publish, ending_ok]
    exact ⟨.added (hk.onto rfl fun _ hu => .inl hu) adds,
      fun t => getUser_writing user.id m m t t (kept_refl m t)⟩

theorem updateUser_writing {data : UserData} (quiet : data.Quiet) (id : ℕ) (operator : Option ℕ) :
    Writing some (updateUser c id data operator) := fun g m b v h => by
  have hquiet := normalize_quiet (a := c.alphabet) (stamped_quiet quiet operator)
  simp only [updateUser, keepAccount, meets_bind, meets_query, ending_ok]
  cases hfound : v.users.find (fun u => u.id == id && (operator.isNone || u.tenantId == operator)) with
  | none => trivial
  | some loaded =>
    refine ((writing_reads (ensureReferrersStillReach_reads _ _)).bind fun _ => writing_pass.bind fun _ =>
      (validate_writing _ _).bind fun _ => (hashOf_writing _).bind fun hash => ?_ :
      Writing some _) _ _ _ _ (h.keepAccount (Table.mem_of_find hfound))
    intro g m b v hk
    simp only [alterUser, meets_bind, meets_query, ending_ok]
    cases halter : v.users.alter (·.id == id)
        (edited (normalize c.alphabet (stamped data operator)) hash) with
    | none => trivial
    | some users =>
      simp only [meets_require_some, meets_bind, meets_execute, ending_ok, steps_publish]
      refine ⟨.wrote (hk.onto rfl fun _ hu => .inl hu) (hk.altered halter rfl rfl le_rfl)
        fun row _ _ => .edited hash hquiet, fun t => ?_⟩
      exact getUser_writing id m m t t (kept_refl m t)

theorem eraseUser_writing (id : ℕ) : Writing₀ (eraseUser c id) := by
  refine (writing_reads (hold_reads id)).bind fun user => fun g m b v h => ?_
  simp only [draw, alterUser, forgetBehaviour, deleteIdentities, deleteChallenges, meets_bind,
    meets_query, meets_execute, meets_pure, ending_ok]
  cases halter : v.users.alter (·.id == id) (erased (c.vault.hex v.drawn)
      (c.vault.hash (c.vault.hex (v.drawn + 1)) (v.drawn + 1)) (v.drawn + 1 + 1)) with
  | none => trivial
  | some users =>
    simp only [meets_require_some, meets_bind, meets_execute, ending_ok, steps_publish]
    refine ⟨.wrote (h.onto rfl fun _ hu => .inl hu) (h.altered halter rfl rfl (by simp; omega))
      fun row _ _ => .erased _ _ ?_ (Nat.lt_succ_self _), fun t => ⟨kept_refl m t, by simp⟩⟩
    have := h.drawn
    omega

/-- A write where a row stands, and its commit. -/
theorem writing_write {p : User → Bool} {f : User → User} (hf : Still f) {id : ℕ}
    (one : ∀ r, p r = true → r.id = id) (change : ∀ old new row, Change old new row (f row))
    {k : Unit → Db α} (hk : Writing gives (k ())) :
    Writing gives (writeUsers p f hf >>= fun _ => publish >>= k) := fun g m b v h => by
  simp only [writeUsers, meets_bind, meets_execute, ending_ok, steps_publish]
  exact ⟨h.wrote hf rfl rfl one fun row => change _ _ row, fun t => hk m m t t (kept_refl m t)⟩

/-- The same, where the session notes something of its own besides. -/
theorem writing_note {p : User → Bool} {f : User → User} (hf : Still f) {id : ℕ}
    (one : ∀ r, p r = true → r.id = id) (change : ∀ old new row, Change old new row (f row))
    {e : Memory → Memory} (he : ∀ m, (e m).answered = m.answered ∧ (e m).account = m.account)
    {k : Unit → Db α} (hk : Writing gives (k ())) :
    Writing gives (writeUsers p f hf >>= fun _ => remember e >>= fun _ => publish >>= k) :=
    fun g m b v h => by
  simp only [writeUsers, meets_bind, meets_execute, meets_remember, ending_ok, steps_publish]
  exact ⟨h.wrote hf (he m).1 (he m).2 one fun row => change _ _ row,
    fun t => hk (e m) (e m) t t (kept_refl _ t)⟩

theorem stillSays_id {u : User} (h : stillSays user u = true) : u.id = user.id := by
  simp only [stillSays, Bool.and_eq_true, beq_iff_eq] at h
  exact h.1.1.1

theorem countFailure_writing (user : User) : Writing₀ (countFailure c user) := by
  have one : ∀ r : User, (r.id == user.id) = true → r.id = user.id := fun r hr => beq_iff_eq.mp hr
  refine (writing_query _).bind fun moment => (writing_query _).bind fun o => ?_
  cases o with
  | none => exact writing_publish.bind fun _ => writing_raise _
  | some row =>
    refine writing_note still_guessed one (fun _ _ _ => .guessed) ?_ ?_
    · exact fun _ => ⟨rfl, rfl⟩
    refine (refresh_writing user).bind fun row => writing_ite (writing_pure ()) ?_
    refine (writing_query _).bind fun _ => (writing_remember _ ?_).bind fun _ => ?_
    · exact fun _ => ⟨rfl, rfl⟩
    refine writing_pass.bind fun _ => (writing_query _).bind fun o => (writing_require _ o).bind
      fun _ => ?_
    intro g m b v h
    simp only [writeUsers, meets_bind, meets_execute, meets_remember, ending_ok, steps_publish]
    exact ⟨h.wrote _ rfl rfl one fun _ => .waits _, fun t => ⟨kept_refl _ t, by simp⟩⟩

theorem claimSignIn_writing (user : User) : Writing some (claimSignIn user) := by
  refine (writing_query _).bind fun claimed => ?_
  refine writing_note still_signedInto (fun r hr => stillSays_id hr) (fun _ _ _ => .signed) ?_ ?_
  · exact fun _ => ⟨rfl, rfl⟩
  refine writing_ite (writing_raise _) ?_
  intro g m b v h
  refine (getUser_writing user.id g m b v h).bind ?_ fun _ _ _ _ _ => trivial
  intro g row m b v hk
  exact meets_ite.mpr ⟨fun _ => trivial, fun _ => hk⟩

theorem settleSignIn_writing (o : Option User) (password : String) {g m : Memory} {b v : Store}
    (h : Kept g m b v) (found : ∀ u ∈ o, u ∈ v.users) : (settleSignIn c o password).Meets
    (stepping Writes) (ending (fun g a b v => Kept g a.2 b v ∧
      ∀ u ∈ some a.1, u ∈ b.users ∨ u ∈ g.account) fun _ _ _ _ => True) g m b v := by
  simp only [settleSignIn, meets_bind, meets_remember, ending_ok]
  have hread : Kept g { m with account := o, proved := settled c o password } b v :=
    ⟨⟨h.recalls.answered, fun u hu => .inl (h.users ▸ found u hu)⟩, h.users, h.letters, h.drawn⟩
  refine (writing_pass _ _ _ _ hread).mono ?_
  rintro g (e | ⟨_, m⟩) b v hpass
  · trivial
  have hk : Kept g m b v := hpass.1
  cases o with
  | none => trivial
  | some user =>
    refine (?_ : Writing some _) _ _ _ _ hk
    refine writing_ite ?_ ?_
    · exact (countFailure_writing user).bind fun _ => writing_raise _
    · exact (writing_query _).bind fun _ => writing_ite (writing_raise _)
        ((writing_reads (ensureUsable_reads user)).bind fun _ => claimSignIn_writing user)

theorem authenticate_writing (tenantId : Option ℕ) (login password : String) :
    Writing some (authenticate c tenantId login password) := fun g m b v h => by
  simp only [authenticate, meets_bind, meets_query, ending_ok]
  exact settleSignIn_writing _ password h fun u hu => Table.mem_of_find hu

theorem authenticateForPanel_writing (tenantId : Option ℕ) (login password : String) :
    Writing some (authenticateForPanel c tenantId login password) := fun g m b v h => by
  simp only [authenticateForPanel, meets_bind, meets_query, ending_ok]
  refine (settleSignIn_writing _ password h fun u hu => (firstOperator_holds hu).1).mono ?_
  rintro g (e | ⟨user, m⟩) b v hk
  · trivial
  · exact meets_ite.mpr ⟨fun _ => hk, fun _ => trivial⟩

theorem claimConfirmation_meets (user : User) (h : Kept g m b v) :
    (claimConfirmation c user).Meets (stepping Writes)
      (ending (fun g a b v => Kept g a.2 b v ∧ a.2.account = some a.1.2 ∧ a.1.2 ∈ b.users)
        fun _ _ _ _ => True) g m b v := by
  have hdrawn : Kept g m b { v with drawn := v.drawn + 1 } := h.view rfl rfl (Nat.le_succ _)
  simp only [claimConfirmation, now, draw, writeUsers, meets_bind, meets_query, meets_execute,
    meets_pure, ending_ok, steps_publish]
  refine ⟨hdrawn.wrote _ rfl rfl (fun r hr => (?_ : r.id = user.id))
    fun row => .mailed _ h.drawn (Nat.lt_succ_self _), fun t => ?_⟩
  · simp only [Bool.and_eq_true, beq_iff_eq] at hr
    exact hr.1
  · refine (refresh_meets user (kept_refl m t)).mono ?_
    rintro g (e | ⟨row, m⟩) b v hk
    · trivial
    · exact hk

theorem mailConfirmation_writing (user : User) : Writing some (mailConfirmation c user) :=
    fun g m b v h => by
  refine (claimConfirmation_meets user h).bind ?_ fun _ _ _ _ _ => trivial
  rintro g ⟨claimed, row⟩ m b v ⟨hk, hrecalled, hmem⟩
  have hgives : ∀ u ∈ some row, u ∈ b.users ∨ u ∈ g.account := by
    rintro _ ⟨⟩
    exact .inl hmem
  refine meets_ite.mpr ⟨fun _ => ⟨hk, hgives⟩, fun _ => ?_⟩
  simp only [pass, meets_bind, steps_yield, id_eq, ending_ok]
  refine ⟨hk.yields, fun t => ?_⟩
  -- the letter is written from the account as it was reread
  have hposted : ∀ letter : Letter, letter.userId = some row.id → letter.address = row.awaited →
      letter.token = row.confirmationToken →
      Writes m t m { t with letters := t.letters ++ [letter] } := fun letter hid ha ht =>
    .posted (recalls_refl m _ _) (fun _ => ⟨row, hrecalled, hid, ha, ht⟩) rfl rfl le_rfl
  have hend : ∀ t, Kept m m t t ∧ ∀ u ∈ some row, u ∈ t.users ∨ u ∈ m.account := by
    refine fun t => ⟨kept_refl m t, ?_⟩
    rintro _ ⟨⟩
    exact .inr hrecalled
  cases hpending : row.pendingEmail with
  | some address =>
    simp only [post, meets_bind, meets_execute, meets_pure, ending_ok, steps_publish]
    exact ⟨hposted _ rfl (by simp [User.awaited, hpending]) rfl, hend⟩
  | none =>
    simp only [post, meets_bind, meets_execute, meets_pure, ending_ok, steps_publish]
    exact ⟨hposted _ rfl (by simp [User.awaited, hpending]) rfl, hend⟩

theorem AccountUpdateRequest.quiet (r : AccountUpdateRequest) : r.data.Quiet :=
  ⟨.inl rfl, fun _ => rfl⟩

theorem SignUpRequest.quiet (r : SignUpRequest) : r.data.Quiet := ⟨.inl rfl, fun _ => rfl⟩

theorem UserPayload.quiet (p : UserPayload) : p.data.Quiet := ⟨.inl rfl, fun _ => rfl⟩

theorem register_writing (tenantId : Option ℕ) {data : UserData} (quiet : data.Quiet) :
    Writing some (register c tenantId data) := fun g m b v h => by
  have hquiet : ∀ (role : Option UserRole) (status : Option UserStatus),
      ({ data with tenantId := some tenantId, role := role, status := status } : UserData).Quiet :=
    fun _ _ => ⟨quiet.token, quiet.awaits⟩
  refine (createUser_writing (hquiet _ _) none g m b v h).bind ?_ fun _ _ _ _ _ => trivial
  intro g user m b v hk
  exact meets_ite.mpr ⟨fun _ => mailConfirmation_writing user _ _ _ _ hk.1, fun _ => hk⟩

theorem settleAccount_writing (user : User) {data : UserData} (quiet : data.Quiet) :
    Writing some (settleAccount c user data) := by
  have hdata : ∀ (P : Prop) [Decidable P],
      (if P then { data with email := none } else data : UserData).Quiet := by
    intro P _
    split_ifs
    · exact ⟨quiet.token, quiet.awaits⟩
    · exact quiet
  refine writing_ite ?_ (updateUser_writing (hdata _) _ _)
  refine (writing_reads (ensureFree_reads _ _ _ _)).bind fun _ => writing_pass.bind fun _ => ?_
  refine (updateUser_writing ?_ _ _).bind fun updated => mailConfirmation_writing updated
  exact ⟨.inr rfl, by simp⟩

theorem updateMe_writing (id : ℕ) {data : UserData} (quiet : data.Quiet) :
    Writing some (updateMe c id data) :=
  (getUser_writing id).bind fun user => writing_pass.bind fun _ => settleAccount_writing user quiet

theorem resendConfirmation_writing (tenantId : Option ℕ) (login : String) :
    Writing₀ (resendConfirmation c tenantId login) := fun g m b v h => by
  simp only [resendConfirmation, meets_bind, meets_query, ending_ok]
  cases hfound : findByLogin c.alphabet login tenantId v with
  | none => exact ⟨h, by simp⟩
  | some user =>
    simp only [keepAccount, meets_bind, meets_remember, ending_ok]
    refine (?_ : Writing₀ _) _ _ _ _ (h.keepAccount (Table.mem_of_find hfound))
    refine writing_ite (writing_pass.bind fun _ => ?_) (writing_pure ())
    exact (mailConfirmation_writing user).bind fun _ => writing_pure ()

/-- A confirmation that ends well answered the letter of its token. -/
theorem confirmSignUp_meets (tenantId : Option ℕ) (token : ℕ) {g m : Memory} {b v : Store}
    (h : Kept g m b v) : (confirmSignUp tenantId token).Meets (stepping Writes)
    (ending (fun g a b v => (Kept g a.2 b v ∧ ∀ u ∈ some a.1.1, u ∈ b.users ∨ u ∈ g.account) ∧
      ∃ answer ∈ a.2.answered, answer.token = token) fun _ _ _ _ => True) g m b v := by
  simp only [confirmSignUp, keepAccount, meets_bind, meets_query, ending_ok]
  cases hfound : findByConfirmationToken token tenantId v with
  | none => trivial
  | some user =>
    simp only [meets_bind, meets_remember, ending_ok]
    refine meets_ite.mpr ⟨fun _ => trivial, fun _ => ?_⟩
    have hread := h.keepAccount (Table.mem_of_find hfound)
    simp only [pass, meets_bind, meets_query, steps_yield, id_eq, ending_ok]
    refine ⟨hread.yields, fun t => ?_⟩
    cases hrow : t.users.get user.id with
    | none => trivial
    | some row =>
      refine meets_ite.mpr ⟨fun hcurrent => ?_, fun _ => trivial⟩
      have hid : row.id = user.id := Table.id_of_get hrow
      simp only [Bool.and_eq_true, beq_iff_eq] at hcurrent
      simp only [alterUser, meets_bind, meets_query, ending_ok]
      cases halter : t.users.alter (·.id == user.id) (confirmed user.pendingEmail.isSome) with
      | none => trivial
      | some users =>
        simp only [meets_require_some, meets_bind, meets_execute, meets_remember, ending_ok,
          steps_publish]
        rw [← hid] at halter
        refine ⟨.answered _ (Table.mem_of_get hrow) hcurrent.1 hcurrent.2
          ((kept_refl Memory.empty t).altered halter rfl rfl le_rfl) (fun _ hu => .inr (.inr hu)) rfl,
          fun t => ?_⟩
        simp only [refresh, keepAccount, meets_bind, meets_query, ending_ok]
        cases hnow : t.users.get user.id with
        | none => trivial
        | some now =>
          have hmem : now ∈ t.users := Table.mem_of_get hnow
          refine ⟨⟨(kept_refl _ t).keepAccount hmem, ?_⟩, _, rfl, rfl⟩
          rintro _ ⟨⟩
          exact .inl hmem

theorem confirmSignUp_answers (tenantId : Option ℕ) (token : ℕ) (h : Kept g m b v) :
    ((Call.confirmSignUp tenantId token).serve c).Meets (stepping Writes)
    (ending (fun g a b v => (Kept g a.2 b v ∧ ∀ u ∈ a.1, u ∈ b.users ∨ u ∈ g.account) ∧
      ∃ answer ∈ a.2.answered, answer.token = token) fun _ _ _ _ => True) g m b v := by
  refine (confirmSignUp_meets tenantId token h).bind ?_ fun _ _ _ _ _ => trivial
  rintro g ⟨user, opened⟩ m b v ⟨⟨hk, hgives⟩, hanswer⟩
  refine ⟨⟨hk, fun u hu => hgives u ?_⟩, hanswer⟩
  split_ifs at hu
  · exact hu
  · cases hu

theorem settlePassword_writing (user : User) (newPassword : String) :
    Writing some (settlePassword c user newPassword) := by
  refine writing_draw.bind fun salt => writing_publish.bind fun _ => (writing_query _).bind fun _ =>
    writing_ite ?_ (writing_raise _)
  refine writing_write (still_rehashed _) (fun r hr => stillSays_id hr) (fun _ _ _ => .rehashed _) ?_
  intro g m b v h
  refine (refresh_writing user g m b v h).bind ?_ fun _ _ _ _ _ => trivial
  intro g row m b v hk
  exact meets_ite.mpr ⟨fun _ => trivial, fun _ => hk⟩

theorem changePassword_writing (id : ℕ) (currentPassword newPassword : String) :
    Writing some (changePassword c id currentPassword newPassword) :=
  (getUser_writing id).bind fun user => writing_pass.bind fun _ =>
    writing_ite (settlePassword_writing user newPassword) (writing_raise _)

theorem claimRecovery_writing (user : User) : Writing₀ (claimRecovery c user) := fun g m b v h => by
  have hdrawn : Kept g m b { v with drawn := v.drawn + 1 } := h.view rfl rfl (Nat.le_succ _)
  simp only [claimRecovery, now, draw, writeUsers, meets_bind, meets_query, meets_execute,
    meets_pure, ending_ok, steps_publish]
  refine ⟨hdrawn.wrote _ rfl rfl (fun r hr => (?_ : r.id = user.id)) fun row => .recovering _ _,
    fun t => ?_⟩
  · simp only [Bool.and_eq_true, beq_iff_eq] at hr
    exact hr.1
  · refine (refresh_meets user (kept_refl m t)).mono ?_
    rintro g (e | ⟨row, m⟩) b v hk
    · trivial
    · exact ⟨hk.1, by simp⟩

/-- A letter that confirms nothing, and its commit. -/
theorem post_writing {letter : Letter} (hquiet : letter.confirms = false) {k : Unit → Db α}
    (hk : Writing gives (k ())) : Writing gives (post letter >>= fun _ => publish >>= k) :=
    fun g m b v h => by
  simp only [post, meets_bind, meets_execute, ending_ok, steps_publish]
  refine ⟨.posted (h.onto rfl fun _ hu => .inl hu) (fun hc => ?_) h.users
    (show v.letters ++ [letter] = b.letters ++ [letter] by rw [h.letters]) h.drawn, fun t => hk m m t t (kept_refl m t)⟩
  rw [hquiet] at hc
  cases hc

theorem startPasswordReset_writing (tenantId : Option ℕ) (login : String) :
    Writing₀ (startPasswordReset c tenantId login) := fun g m b v h => by
  simp only [startPasswordReset, meets_bind, meets_query, ending_ok]
  cases hfound : findByLogin c.alphabet login tenantId v with
  | none => exact ⟨h, by simp⟩
  | some user =>
    simp only [keepAccount, meets_bind, meets_remember, ending_ok]
    refine (?_ : Writing₀ _) _ _ _ _ (h.keepAccount (Table.mem_of_find hfound))
    refine writing_ite (writing_pure ()) (writing_pass.bind fun _ =>
      (claimRecovery_writing user).bind fun claimed => writing_ite (writing_pass.bind fun _ => ?_)
        (writing_pure ()))
    exact post_writing rfl (writing_pure ())

theorem recoverable_writing (tenantId : Option ℕ) (token : ℕ) :
    Writing₀ (recoverable c tenantId token) := fun g m b v h => by
  simp only [recoverable, meets_bind, meets_query, ending_ok]
  cases hfound : findByRecoveryToken token tenantId v with
  | none => trivial
  | some user =>
    simp only [keepAccount, meets_bind, meets_remember, ending_ok]
    refine (?_ : Writing₀ _) _ _ _ _ (h.keepAccount (Table.mem_of_find hfound))
    cases user.recoveryTokenCreatedAt with
    | none => exact writing_raise _
    | some created => exact (writing_query _).bind fun _ => writing_ite (writing_raise _) (writing_pure _)

theorem confirmPasswordReset_writing (tenantId : Option ℕ) (token : ℕ) (newPassword : String) :
    Writing₀ (confirmPasswordReset c tenantId token newPassword) := by
  refine (recoverable_writing tenantId token).bind fun user => writing_draw.bind fun salt =>
    writing_publish.bind fun _ => (writing_query _).bind fun _ => writing_ite ?_
      (writing_publish.bind fun _ => writing_raise _)
  refine writing_write (still_recovered _) (fun r hr => (?_ : r.id = user.id))
    (fun _ _ _ => .recovered _) ((refresh_writing user).bind fun _ => writing_pure ())
  simp only [Bool.and_eq_true, beq_iff_eq] at hr
  exact hr.1

theorem signedIn_writing (user : User) (surface : AuthenticationSurface) (tenantId : Option ℕ) :
    Writing some (signedIn user surface tenantId) := by
  refine (writing_reads (ensureAccess_reads user surface)).bind fun _ =>
    (writing_reads (ensureScope_reads user tenantId surface)).bind fun _ => (writing_query _).bind fun _ => ?_
  refine writing_write still_signedInto (fun r hr => (?_ : r.id = user.id)) (fun _ _ _ => .signed)
    (writing_ite (writing_raise _) ?_)
  · simp only [Bool.and_eq_true, beq_iff_eq] at hr
    exact hr.1.1.1
  · intro g m b v h
    refine (getUser_writing user.id g m b v h).bind ?_ fun _ _ _ _ _ => trivial
    intro g row m b v hk
    rw [meets_bind]
    refine (ensureAccess_reads _ _).meets (fun _ => ?_) fun _ => trivial
    simp only [meets_bind, ending_ok]
    refine (ensureScope_reads _ _ _).meets (fun _ => ?_) fun _ => trivial
    exact meets_ite.mpr ⟨fun _ => trivial, fun _ => hk⟩

theorem mailCode_writing (address code : String) (challenge : EmailLoginChallenge) :
    Writing₀ (mailCode address code challenge) :=
  post_writing rfl ((writing_query _).bind fun o => writing_require _ o)

theorem requestCode_writing (tenantId : Option ℕ) (email : String)
    (surface : AuthenticationSurface) (code : String) :
    Writing₀ (requestCode c tenantId email surface code) := by
  have hset : ∀ t, Writing₀ (execute (fun s => { s with challenges := t }) : Db Unit) := fun t =>
    writing_execute _ fun _ => ⟨rfl, rfl, le_rfl⟩
  have hnote : ∀ f : Option Asked → Option Asked, Writing₀ (remember (fun m =>
      { m with asked := f m.asked }) : Db Unit) := fun f => writing_remember _ fun _ => ⟨rfl, rfl⟩
  have hrenew : ∀ (P : Store → Bool) (Q : EmailLoginChallenge → Bool)
      (f : EmailLoginChallenge → EmailLoginChallenge) (R : EmailLoginChallenge → Prop)
      [∀ e, Decidable (R e)] (address : String) (found : EmailLoginChallenge),
      Writing₀ (do
        remember (fun m => { m with asked := m.asked.map (fun a => { a with row := some found.id }) })
        pass
        if ← query P then
          let t ← require Fault.gone (← query (·.challenges.alter Q f))
          execute (fun s => { s with challenges := t })
          remember (fun m => { m with asked := none })
          mailCode address code found
        else
          publish
          let row ← require Fault.gone (← query (·.challenges.get found.id))
          if R row then raise (.validation "error.sign-in-code-wait") else pure row :
        Db EmailLoginChallenge) := by
    intro P Q f R _ address found
    refine (hnote (Option.map fun a => { a with row := some found.id })).bind fun _ => writing_pass.bind fun _ =>
      (writing_query _).bind fun _ => writing_ite ?_ ?_
    · exact (writing_query _).bind fun o => (writing_require _ o).bind fun t => (hset t).bind fun _ =>
        (hnote (fun _ => none)).bind fun _ => mailCode_writing _ _ _
    · exact writing_publish.bind fun _ => (writing_query _).bind fun o =>
        (writing_require _ o).bind fun row => writing_ite (writing_raise _) (writing_pure row)
  refine (writing_reads (requireEmail_reads c surface)).bind fun _ => (writing_query _).bind fun moment =>
    writing_draw.bind fun token => (hnote (fun _ => some _)).bind fun _ => writing_publish.bind
      fun _ => (writing_query _).bind fun o => ?_
  cases o with
  | some found => exact hrenew _ _ _ _ _ found
  | none =>
    refine writing_pass.bind fun _ => (writing_query _).bind fun o => ?_
    cases o with
    | some proposed =>
      exact (hset proposed.2).bind fun _ => (hnote (fun _ => none)).bind fun _ => mailCode_writing _ _ _
    | none =>
      refine writing_pass.bind fun _ => (writing_query _).bind fun o => ?_
      cases o with
      | some found => exact hrenew _ _ _ _ _ found
      | none => exact writing_raise _

/-- A code that is right opens a session of an account it finds, opens or adds. -/
theorem openPending_meets (user : User) (h : Kept g m b v) (found : user ∈ v.users) {t : Store}
    (users : t.users = v.users) (letters : t.letters = v.letters) (drawn : v.drawn ≤ t.drawn)
    {k : User → Db α} (hk : ∀ user, Writing gives (k user)) :
    (openPending user >>= fun user => publish >>= fun _ => k user).Meets (stepping Writes)
      (ending (fun g a b v => Kept g a.2 b v ∧ ∀ u ∈ gives a.1, u ∈ b.users ∨ u ∈ g.account)
        fun _ _ _ _ => True) g m b t := by
  have ht : Kept g m b t := h.view users letters drawn
  rw [openPending, meets_bind]
  refine meets_ite.mpr ⟨fun _ => ?_, fun _ => ?_⟩
  · simp only [writeUsers, keepAccount, meets_bind, meets_execute, meets_query, ending_ok]
    cases hrow : (t.users.modify (fun u => u.id == user.id && u.status == .pending) opened
        still_opened).get user.id with
    | none => trivial
    | some row =>
      simp only [meets_require_some, meets_bind, meets_remember, meets_pure, ending_ok, steps_publish]
      refine ⟨.wrote (p := fun u => u.id == user.id && u.status == .pending)
        (f := opened) (ht.onto rfl ?_) ⟨fun r hr => (?_ : r.id = user.id), fun row' => ?_, ht.letters, ht.drawn⟩
        fun row _ _ => .opened, fun t => hk row _ _ t t (kept_refl _ t)⟩
      · rintro _ ⟨⟩
        exact .inr (Table.mem_of_get hrow)
      · simp only [Bool.and_eq_true, beq_iff_eq] at hr
        exact hr.1
      · rw [← ht.users]
        exact Table.mem_modify still_opened
  · simp only [keepAccount, meets_bind, meets_remember, meets_pure, ending_ok, steps_publish]
    exact ⟨(ht.keepAccount (users ▸ found)).writes, fun t => hk user _ _ t t (kept_refl _ t)⟩

theorem confirmCode_writing (tenantId : Option ℕ) (token : ℕ) (code : String)
    (surface : AuthenticationSurface) : Writing some (confirmCode c tenantId token code surface) := by
  refine (writing_reads (requireEmail_reads c surface)).bind fun _ => (writing_query _).bind fun moment =>
    (writing_query _).bind fun o => ?_
  have hset : ∀ (p : EmailLoginChallenge → Bool) (f : EmailLoginChallenge → EmailLoginChallenge)
      (hf : Still f), Writing₀ (writeChallenges p f hf) := fun p f hf =>
    writing_execute _ fun _ => ⟨rfl, rfl, le_rfl⟩
  cases o with
  | none => exact (hset _ _ _).bind fun _ => writing_publish.bind fun _ => writing_raise _
  | some challenge =>
    refine (hset _ _ _).bind fun _ => (writing_remember _ ?_).bind fun _ => fun g m b v h => ?_
    · exact fun _ => ⟨rfl, rfl⟩
    simp only [meets_bind, meets_query, ending_ok]
    cases hfound : byEmail tenantId challenge.email surface v with
    | some user =>
      exact openPending_meets user h (firstOperator_holds hfound).1 rfl rfl le_rfl
        fun user => signedIn_writing user surface tenantId
    | none =>
      refine (?_ : Writing some _) g m b v h
      refine writing_ite (writing_publish.bind fun _ => writing_raise _) ?_
      refine (writing_reads (ensureFree_reads _ _ _ _)).bind fun _ => fun g m b v h => ?_
      refine (addUser_meets _ (fun _ _ => rfl) (fun _ _ => rfl) h).bind ?_ fun _ _ _ _ _ => trivial
      rintro g user m b v ⟨hk, adds⟩
      simp only [keepAccount, meets_bind, meets_remember, ending_ok, steps_publish]
      refine ⟨.added (hk.onto rfl ?_) adds,
        fun t => signedIn_writing user surface tenantId _ _ t t (kept_refl _ t)⟩
      rintro _ ⟨⟩
      exact .inr ((adds.rows user).mpr (.inr rfl))

theorem socialSignIn_writing (attempt : SocialLoginAttempt) (profile : SocialProfile)
    (username : String) : Writing some (socialSignIn c attempt profile username) := by
  refine (writing_reads (requireSocial_reads c _ _)).bind fun _ => fun g m b v h => ?_
  simp only [meets_bind, meets_query, ending_ok]
  cases hfound : identityOwner attempt profile.subject v with
  | some user =>
    simp only [keepAccount, meets_bind, meets_remember, ending_ok]
    exact (writing_pass.bind fun _ => signedIn_writing user attempt.surface attempt.tenantId) _ _ _ _
      (h.keepAccount (firstOperator_holds hfound).1)
  | none =>
    refine (?_ : Writing some _) g m b v h
    refine (writing_query _).bind fun _ => writing_ite (writing_raise _)
      (writing_ite (writing_raise _) ?_)
    -- the address is free or there is none, and what follows is the same
    rcases profile.email with _ | email
    on_goal 2 => refine (writing_reads (ensureFree_reads _ _ _ _)).bind fun _ => ?_
    all_goals
      refine writing_pass.bind fun _ => fun g m b v h => ?_
      refine (addUser_meets _ (fun _ _ => rfl) (fun _ _ => rfl) h).bind ?_ fun _ _ _ _ _ => trivial
      rintro g user m b v ⟨hk, adds⟩
      refine meets_bind.mpr (meets_query.mpr ?_)
      simp only [ending_ok]
      cases v.identities.find (fun i => i.tenantId == attempt.tenantId &&
          i.provider == attempt.provider && i.subject == profile.subject) with
      | some linked =>
        refine meets_bind.mpr (meets_revert.mpr ?_)
        exact (writing_pass.bind fun _ => (getUser_writing _).bind fun user =>
          signedIn_writing user _ _) g m b b hk
      | none =>
        simp only [meets_bind, meets_query, ending_ok]
        cases v.identities.insert (fun id => (⟨id, user.tenantId, user.id, attempt.provider,
            profile.subject⟩ : SocialIdentity)) with
        | none => trivial
        | some inserted =>
          simp only [keepAccount, meets_require_some, meets_bind, meets_execute, meets_remember, ending_ok,
            steps_publish]
          refine ⟨.added (hk.onto rfl ?_) (show Adds user _ _ from
            ⟨adds.low, adds.high, adds.quiet, adds.rows, adds.letters⟩),
            fun t => signedIn_writing user _ _ _ _ t t (kept_refl _ t)⟩
          rintro _ ⟨⟩
          exact .inr ((adds.rows user).mpr (.inr rfl))

theorem connect_writing (attempt : SocialLoginAttempt) (userId : ℕ) (profile : SocialProfile) :
    Writing₀ (connect c attempt userId profile) := by
  refine (writing_reads (requireSocial_reads c _ _)).bind fun _ => fun g m b v h => ?_
  simp only [keepAccount, meets_bind, meets_query, ending_ok]
  cases hfound : v.users.get userId with
  | none => trivial
  | some loaded =>
    simp only [meets_require_some, meets_bind, meets_remember, ending_ok]
    refine (?_ : Writing₀ _) _ _ _ _ (h.keepAccount (Table.mem_of_get hfound))
    refine writing_ite (writing_raise _) ((writing_reads (ensureAccess_reads _ _)).bind fun _ =>
      writing_pass.bind fun _ => fun g m b v h => ?_)
    rw [meets_bind]
    refine hold_meets (fun user hget _ => ?_) fun _ => trivial
    rw [ending_ok, meets_bind]
    refine (ensureAccess_reads _ _).meets (fun _ => ?_) fun _ => trivial
    simp only [meets_bind, ending_ok]
    refine (ensureScope_reads _ _ _).meets (fun _ => ?_) fun _ => trivial
    refine meets_ite.mpr ⟨fun _ => trivial, fun _ => meets_bind.mpr (meets_query.mpr ?_)⟩
    simp only [ending_ok]
    cases v.identities.find (fun i => i.userId == user.id && i.provider == attempt.provider) with
    | some linked =>
      refine meets_ite.mpr ⟨fun _ => trivial, fun _ => ?_⟩
      simp only [meets_bind, meets_remember, meets_pure, ending_ok, steps_publish]
      exact ⟨(h.keepAccount (Table.mem_of_get hget)).writes, fun t => ⟨kept_refl _ t, by simp⟩⟩
    | none =>
      simp only [meets_bind, meets_query, ending_ok]
      cases v.identities.insert (fun id => (⟨id, user.tenantId, user.id, attempt.provider,
          profile.subject⟩ : SocialIdentity)) with
      | none => trivial
      | some inserted =>
        simp only [meets_require_some, meets_bind, meets_execute, meets_remember, meets_pure,
          ending_ok, steps_publish]
        refine ⟨Kept.writes (v := { v with identities := inserted.2 }) ?_,
          fun t => ⟨kept_refl _ t, by simp⟩⟩
        exact (h.keepAccount (Table.mem_of_get hget)).view rfl rfl le_rfl

theorem disconnect_writing (userId : ℕ) (provider : SocialProvider)
    (surface : AuthenticationSurface) : Writing₀ (disconnect c userId provider surface) := by
  refine (writing_reads (hold_reads userId)).bind fun user => (writing_reads (ensureAccess_reads user surface)).bind fun _ =>
    (writing_query _).bind fun _ => writing_ite (writing_raise _)
      ((writing_execute _ ?_).bind fun _ => writing_publish)
  exact fun _ => ⟨rfl, rfl, le_rfl⟩

theorem silent_writing {p : Db α} (hp : Writing gives p) : Writing id (silent p) :=
  hp.bind fun _ => writing_pure _

/-- Every call writes only in these ways, and the account it answers is one it read or recalled. -/
theorem serve_writing (call : Call) : Writing id (call.serve c) := by
  have hanswer : ∀ {p : Db User}, Writing some p → Writing id (p >>= fun user => pure (some user)) := by
    intro p hp g m b v h
    exact (hp g m b v h).bind (fun _ _ _ _ _ hk => hk) fun _ _ _ _ _ => trivial
  cases call with
  | authenticate tenantId login password => exact hanswer (authenticate_writing _ _ _)
  | authenticateForPanel tenantId login password => exact hanswer (authenticateForPanel_writing _ _ _)
  | register tenantId request =>
    intro g m b v h
    refine (register_writing tenantId request.quiet g m b v h).bind ?_
      fun _ _ _ _ _ => trivial
    rintro g user m b v ⟨hk, hgives⟩
    refine ⟨hk, fun u hu => hgives u ?_⟩
    dsimp only [id] at hu
    split_ifs at hu
    · exact hu
    · cases hu
  | resendConfirmation tenantId login => exact silent_writing (resendConfirmation_writing _ _)
  | confirmSignUp tenantId token =>
    intro g m b v h
    refine (confirmSignUp_answers tenantId token h).mono ?_
    rintro g (e | ⟨o, m⟩) b v hk
    · trivial
    · exact hk.1
  | updateMe id request => exact silent_writing (updateMe_writing _ request.quiet)
  | changePassword id currentPassword newPassword => exact hanswer (changePassword_writing _ _ _)
  | startPasswordReset tenantId login => exact silent_writing (startPasswordReset_writing _ _)
  | confirmPasswordReset tenantId token newPassword =>
    exact silent_writing (confirmPasswordReset_writing _ _ _)
  | createUser payload operator =>
    exact silent_writing (createUser_writing payload.quiet _)
  | updateUser id payload operator =>
    exact silent_writing (updateUser_writing payload.quiet _ _)
  | eraseUser id => exact silent_writing (eraseUser_writing _)
  | requestCode tenantId email surface code => exact silent_writing (requestCode_writing _ _ _ _)
  | confirmCode tenantId token code surface => exact hanswer (confirmCode_writing _ _ _ _)
  | socialSignIn attempt profile username => exact hanswer (socialSignIn_writing _ _ _)
  | connect attempt userId profile => exact silent_writing (connect_writing _ _ _)
  | disconnect userId provider surface => exact silent_writing (disconnect_writing _ _ _)
  | tick by' =>
    refine silent_writing ((writing_execute _ ?_).bind fun _ => writing_publish)
    exact fun _ => ⟨rfl, rfl, le_rfl⟩

/-- How a call ends: the account it answers is a row or one it recalled, what it answered of a
letter it recalls, and a confirmation answered the letter of its token. -/
structure Closes (call : Call) (g : Memory) (o : Option User) (m : Memory) (b : Store) : Prop where
  answered : m.answered = g.answered
  gives : ∀ u ∈ o, u ∈ b.users ∨ u ∈ g.account
  confirms : ∀ tenantId token, call = .confirmSignUp tenantId token →
    ∃ answer ∈ m.answered, answer.token = token

abbrev Closing (calls : List Call) :
    ℕ → Memory → Except Fault (Option User × Memory) → Store → Store → Prop :=
  fun i => ending (fun g a b _ => ∃ call, calls[i]? = some call ∧ Closes call g a.1 a.2 b)
    fun _ _ _ _ => True

theorem stepping_serve (calls : List Call) (s : Store) :
    Pool.Stepping (fun _ => Writes) (Closing calls) (sessions c calls s) := by
  intro i o ho
  simp only [sessions, List.getElem?_map, Option.map_eq_some_iff] at ho
  obtain ⟨call, hcall, rfl⟩ := ho
  refine ⟨Memory.empty, rfl, fun t _ _ => ?_⟩
  have hk := kept_refl Memory.empty t
  by_cases hc : ∃ tenantId token, call = .confirmSignUp tenantId token
  · obtain ⟨tenantId, token, rfl⟩ := hc
    refine (confirmSignUp_answers tenantId token hk).mono ?_
    rintro g (e | ⟨o, m⟩) b v hclose
    · trivial
    · refine ⟨_, hcall, hclose.1.1.recalls.answered, hclose.1.2, ?_⟩
      rintro _ _ ⟨⟩
      exact hclose.2
  · refine (serve_writing call _ _ t t hk).mono ?_
    rintro g (e | ⟨o, m⟩) b v hclose
    · trivial
    · exact ⟨call, hcall, hclose.1.recalls.answered, hclose.2,
        fun tenantId token h => absurd ⟨tenantId, token, h⟩ hc⟩

variable {q r : Sessions} {calls : List Call} {l k : List (Turn Store)}
  {ok : Sessions → ℕ → Sessions → Prop}

/-- A turn writes the accounts or leaves the store as it is. -/
theorem run_writes (run : Pool.Run ok (sessions c calls s) l q) {i : ℕ}
    (taken : q.turn i = some r) :
    r.store = q.store ∨ ∃ m m', Writes m q.store m' r.store := by
  obtain ⟨m, -, hstep⟩ := (run.stepped (stepping_serve calls s) taken).step
  rcases hstep with ⟨-, -, -, hsame, -⟩ | ⟨m', -, w⟩
  · exact .inl hsame
  · exact .inr ⟨m, m', w⟩

/-- What every write keeps of the store, the turns a run goes on with keep. -/
theorem run_keeps (run : Pool.Run ok (sessions c calls s) l q) (more : Pool.Run ok q k r)
    {P : Store → Prop} (keep : ∀ {m m' s t}, Writes m s m' t → P s → P t) (h : P q.store) :
    P r.store := by
  induction more with
  | start => exact h
  | turn i past taken _ ih =>
    rcases run_writes (run.append past) taken with hsame | ⟨_, _, w⟩
    · rw [hsame]
      exact ih
    · exact keep w ih

end FastKit.Accounts
