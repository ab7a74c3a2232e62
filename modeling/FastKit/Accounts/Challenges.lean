import FastKit.Accounts.Segments

/-! # What requests and confirmations do to the codes

A request draws a token, finds the row of its scope or adds it, and writes the code with the
letter that carries it. A confirmation is one commit: it spends the code or counts a miss.
-/

namespace FastKit.Accounts
open Transaction Transaction.Program

variable {c : Setup} {g m m' : Memory} {b v s t : Store} {user : User} {e e' : EmailLoginChallenge}

/-- What a code is drawn for: the brand, the surface and the address. -/
def Asked.scope (a : Asked) : Option ℕ × AuthenticationSurface × String :=
  (a.tenantId, a.surface, a.email)

def EmailLoginChallenge.scope (e : EmailLoginChallenge) : Option ℕ × AuthenticationSurface × String :=
  (e.tenantId, e.surface, e.email)

/-- The letter that carries a code to its address. -/
def Asked.letter (a : Asked) : Letter := ⟨"sign-in-code", none, some a.email, none, some a.code⟩

/-- A session that drew a code and did not write it yet. -/
def asking (asked : Asked) : Memory := { Memory.empty with asked := some asked }

/-- A session that spent a code. -/
def spending (account : Option User) (spent : Spent) : Memory :=
  { Memory.empty with account := account, spent := some spent }

/-- The row of a code that is written for the first time. -/
def Asked.challenge (c : Setup) (a : Asked) (id expiresAt resendAt : ℕ) : EmailLoginChallenge :=
  ⟨id, a.tenantId, c.vault.scopeDigest a.scope, a.surface, a.email, a.token,
    c.vault.codeDigest a.token a.code, 0, expiresAt, resendAt, none⟩

/-- A code of the token that still may be answered, with the right code or a wrong one. -/
def right (c : Setup) (tenantId : Option ℕ) (token : ℕ) (surface : AuthenticationSurface)
    (code : String) (moment : ℕ) (e : EmailLoginChallenge) : Bool :=
  live c tenantId token surface moment e && e.codeDigest == c.vault.codeDigest token code

def wrong (c : Setup) (tenantId : Option ℕ) (token : ℕ) (surface : AuthenticationSurface)
    (code : String) (moment : ℕ) (e : EmailLoginChallenge) : Bool :=
  live c tenantId token surface moment e && e.codeDigest != c.vault.codeDigest token code

/-- What a segment of a request or a confirmation does to the codes. -/
inductive Codes (c : Setup) (call : Call) : Memory → Store → Memory → Store → Prop where
  | kept {m : Memory} {s t : Store} (challenges : t.challenges = s.challenges)
      (letters : t.letters = s.letters) (drawn : s.drawn ≤ t.drawn) : Codes c call m s m t
  | drew {s t : Store} {asked : Asked} {email : String} (low : s.drawn ≤ asked.token) (high : asked.token < t.drawn)
      (asks : call = .requestCode asked.tenantId email asked.surface asked.code)
      (address : asked.email = c.alphabet.lower email) (free : asked.row = none) (challenges : t.challenges = s.challenges)
      (letters : t.letters = s.letters) : Codes c call Memory.empty s (asking asked) t
  | found {s : Store} {asked : Asked} {e : EmailLoginChallenge} (mem : e ∈ s.challenges)
      (scope : e.scopeKey = c.vault.scopeDigest asked.scope) :
      Codes c call (asking asked) s (asking { asked with row := some e.id }) s
  | renewed {s t : Store} {asked : Asked} {id expiresAt resendAt : ℕ}
      {p : EmailLoginChallenge → Bool} (held : asked.row = some id)
      (one : ∀ e, p e = true → e.id = id)
      (rows : ∀ e', e' ∈ t.challenges ↔ ∃ e ∈ s.challenges, (if p e then redrawn asked.token
        (c.vault.codeDigest asked.token asked.code) expiresAt resendAt e else e) = e')
      (letters : t.letters = s.letters ++ [asked.letter]) (drawn : t.drawn = s.drawn) :
      Codes c call (asking asked) s Memory.empty t
  | inserted {s t : Store} {asked : Asked} {id expiresAt resendAt : ℕ}
      (rows : ∀ e', e' ∈ t.challenges ↔
        e' ∈ s.challenges ∨ e' = asked.challenge c id expiresAt resendAt)
      (letters : t.letters = s.letters ++ [asked.letter]) (drawn : t.drawn = s.drawn) :
      Codes c call (asking asked) s Memory.empty t
  | missed {s : Store} {tenantId : Option ℕ} {token : ℕ} {surface : AuthenticationSurface}
      {code : String} (asks : call = .confirmCode tenantId token code surface) :
      Codes c call Memory.empty s Memory.empty
        { s with challenges := s.challenges.modify (wrong c tenantId token surface code s.clock)
                                 missed still_missed }
  | spent {s t : Store} {account : Option User} {e : EmailLoginChallenge} {tenantId : Option ℕ}
      {token : ℕ} {surface : AuthenticationSurface} {code : String}
      (asks : call = .confirmCode tenantId token code surface) (mem : e ∈ s.challenges)
      (holds : right c tenantId token surface code s.clock e = true)
      (challenges : t.challenges = s.challenges.modify
        (right c tenantId token surface code s.clock) (consumed s.clock) (still_consumed _))
      (reached : ∀ u ∈ account, u ∈ t.users ∧ u.email = some e.email ∧
        inScope tenantId surface u = true)
      (letters : t.letters = s.letters) (drawn : s.drawn ≤ t.drawn) :
      Codes c call Memory.empty s (spending account ⟨token, tenantId, surface, e.email, s.clock⟩) t

/-- How a call ends: it spent what it recalls, the account it answers is the one it recalls, and
a confirmation spent the code of its token where it was asked. -/
structure Signs (call : Call) (g : Memory) (o : Option User) (m : Memory) : Prop where
  spent : m.spent = g.spent
  account : ∀ u ∈ o, ∃ account ∈ g.account, u.id = account.id
  confirms : ∀ tenantId token code surface, call = .confirmCode tenantId token code surface →
    ∃ spent ∈ m.spent, spent.token = token ∧ spent.tenantId = tenantId ∧ spent.surface = surface

/-- Who spent a code opens a session of the account it recalls. -/
theorem signedIn_codes (call : Call) (user : User) (spent : Spent) (code : String) (s : Store) :
    (signedIn user spent.surface spent.tenantId).Meets (stepping (Codes c call))
      (ending (fun g a _ _ => Signs (.confirmCode spent.tenantId spent.token code spent.surface) g
        (some a.1) a.2) fun _ _ _ _ => True)
      (spending (some user) spent) (spending (some user) spent) s s := by
  rw [signedIn, meets_bind]
  refine (ensureAccess_reads _ _).meets (fun _ => ?_) fun _ => trivial
  rw [ending_ok, meets_bind]
  refine (ensureScope_reads _ _ _).meets (fun _ => ?_) fun _ => trivial
  simp only [writeUsers, meets_bind, meets_query, meets_execute, ending_ok, steps_publish]
  refine ⟨.kept rfl rfl le_rfl, fun t => ?_⟩
  refine meets_ite.mpr ⟨fun _ => trivial, fun _ => ?_⟩
  simp only [getUser, keepAccount, meets_bind, meets_query, ending_ok]
  cases hrow : t.users.get user.id with
  | none => trivial
  | some row =>
    simp only [meets_require_some, meets_bind, meets_remember, meets_pure, ending_ok]
    refine (ensureAccess_reads _ _).meets (fun _ => ?_) fun _ => trivial
    rw [ending_ok, meets_bind]
    refine (ensureScope_reads _ _ _).meets (fun _ => ?_) fun _ => trivial
    refine meets_ite.mpr ⟨fun _ => trivial, fun _ => ?_⟩
    refine Signs.mk rfl ?_ ?_
    · rintro _ ⟨⟩
      exact ⟨user, rfl, Table.id_of_get hrow⟩
    · rintro _ _ _ _ ⟨⟩
      exact ⟨spent, rfl, rfl, rfl, rfl⟩

/-- A store a code was spent in, and nothing else written of the codes and the letters. -/
structure SpentIn (c : Setup) (tenantId : Option ℕ) (token : ℕ) (code : String)
    (surface : AuthenticationSurface) (s : Store) (e : EmailLoginChallenge) (t : Store) : Prop where
  mem : e ∈ s.challenges
  holds : right c tenantId token surface code s.clock e = true
  challenges : t.challenges = s.challenges.modify (right c tenantId token surface code s.clock)
    (consumed s.clock) (still_consumed _)
  letters : t.letters = s.letters
  drawn : s.drawn ≤ t.drawn

section Confirmation
variable {tenantId : Option ℕ} {token : ℕ} {code : String} {surface : AuthenticationSurface}
  {e : EmailLoginChallenge} {s w t : Store} {user row : User} {account : Option User}

theorem SpentIn.codes (h : SpentIn c tenantId token code surface s e t)
    (haccount : ∀ u ∈ account, u ∈ t.users ∧ u.email = some e.email ∧
      inScope tenantId surface u = true) : Codes c (.confirmCode tenantId token code surface)
      Memory.empty s (spending account ⟨token, tenantId, surface, e.email, s.clock⟩) t :=
  .spent rfl h.mem h.holds h.challenges haccount h.letters h.drawn

/-- A pending account that was opened is of the address and the brand it was of. -/
theorem opened_same (hmem : user ∈ w.users) (hrow : (w.users.modify
      (fun u => u.id == user.id && u.status == .pending) opened still_opened).get user.id = some row) :
    row.email = user.email ∧ row.tenantId = user.tenantId := by
  obtain ⟨before, hbefore, rfl⟩ := (Table.mem_modify still_opened).mp (Table.mem_of_get hrow)
  have hid : before.id = user.id := by
    have hget := Table.id_of_get hrow
    split_ifs at hget
    · exact hget
    · exact hget
  obtain rfl := Table.eq_of_id hbefore hmem hid
  split_ifs <;> exact ⟨rfl, rfl⟩

/-- The account that has the address of a code opens a session of its own. -/
theorem opened_codes (h : SpentIn c tenantId token code surface s e w)
    (huser : byEmail tenantId e.email surface w = some user) :
    (do
      let user ← openPending user
      publish
      signedIn user surface tenantId).Meets
      (stepping (Codes c (.confirmCode tenantId token code surface)))
      (ending (fun g a _ _ => Signs (.confirmCode tenantId token code surface) g (some a.1) a.2)
        fun _ _ _ _ => True)
      Memory.empty (spending none ⟨token, tenantId, surface, e.email, s.clock⟩) s w := by
  obtain ⟨hmem, hfits⟩ := firstOperator_holds huser
  simp only [Bool.and_eq_true, beq_iff_eq] at hfits
  -- whoever the code opens a session of has the address of the code as the code is spent
  have hopen : ∀ (row : User) (t : Store), SpentIn c tenantId token code surface s e t →
      row ∈ t.users → row.email = user.email → row.tenantId = user.tenantId →
      Codes c (.confirmCode tenantId token code surface) Memory.empty s
        (spending (some row) ⟨token, tenantId, surface, e.email, s.clock⟩) t := by
    intro row t ht hrow hemail htenant
    refine ht.codes ?_
    rintro _ ⟨⟩
    refine ⟨hrow, hemail.trans hfits.1, ?_⟩
    have hscope := hfits.2
    simpa only [inScope, belongsToTenant, htenant] using hscope
  simp only [openPending, meets_bind]
  refine meets_ite.mpr ⟨fun _ => ?_, fun _ => ?_⟩
  · simp only [writeUsers, keepAccount, meets_bind, meets_execute, meets_query, ending_ok]
    cases hrow : (w.users.modify (fun u => u.id == user.id && u.status == .pending) opened
        still_opened).get user.id with
    | none => trivial
    | some row =>
      simp only [meets_require_some, meets_bind, meets_remember, meets_pure, ending_ok, steps_publish]
      have hsame := opened_same hmem hrow
      exact ⟨hopen row _ ⟨h.mem, h.holds, h.challenges, h.letters, h.drawn⟩ (Table.mem_of_get hrow)
        hsame.1 hsame.2, signedIn_codes _ row ⟨token, tenantId, surface, e.email, s.clock⟩ code⟩
  · simp only [keepAccount, meets_bind, meets_remember, meets_pure, ending_ok, steps_publish]
    exact ⟨hopen user w h hmem rfl rfl,
      signedIn_codes _ user ⟨token, tenantId, surface, e.email, s.clock⟩ code⟩

/-- Where nobody has the address, an account is added that opens a session of its own. -/
theorem joined_codes (h : SpentIn c tenantId token code surface s e w) (hsite : surface = .site) :
    (do
      ensureFree c.alphabet .email e.email tenantId none
      let user ← addUser (newcomer tenantId (some e.email) none) .gone
      keepAccount (some user)
      publish
      signedIn user surface tenantId).Meets
      (stepping (Codes c (.confirmCode tenantId token code surface)))
      (ending (fun g a _ _ => Signs (.confirmCode tenantId token code surface) g (some a.1) a.2)
        fun _ _ _ _ => True)
      Memory.empty (spending none ⟨token, tenantId, surface, e.email, s.clock⟩) s w := by
  simp only [ensureFree, meets_bind, meets_query, ending_ok]
  cases taken c.alphabet e.email tenantId none w with
  | some _ => trivial
  | none =>
    simp only [addUser, draw, keepAccount, meets_pure, meets_bind, meets_query, meets_execute, ending_ok]
    cases hins : w.users.insert (fun id => newcomer tenantId (some e.email) none id w.drawn) with
    | none => trivial
    | some inserted =>
      obtain ⟨user, users⟩ := inserted
      obtain ⟨rfl, -⟩ := Table.insert_eq_some hins
      simp only [meets_require_some, meets_pure, meets_bind, meets_execute, meets_remember, ending_ok,
        steps_publish]
      refine ⟨SpentIn.codes ⟨h.mem, h.holds, h.challenges, h.letters, h.drawn.trans (Nat.le_succ _)⟩ ?_,
        signedIn_codes _ _ ⟨token, tenantId, surface, e.email, s.clock⟩ code⟩
      rintro _ ⟨⟩
      exact ⟨(Table.mem_insert hins).mpr (.inr rfl), rfl, by simp [inScope, hsite, belongsToTenant,
        newcomer]⟩

end Confirmation

/-- A confirmation is one commit, and what follows it opens a session of the account it found. -/
theorem confirmCode_codes (tenantId : Option ℕ) (token : ℕ) (code : String)
    (surface : AuthenticationSurface) (s : Store) :
    (confirmCode c tenantId token code surface).Meets
      (stepping (Codes c (.confirmCode tenantId token code surface)))
      (ending (fun g a _ _ => Signs (.confirmCode tenantId token code surface) g (some a.1) a.2)
        fun _ _ _ _ => True) Memory.empty Memory.empty s s := by
  rw [confirmCode, meets_bind]
  refine meets_ite.mpr ⟨fun _ => ?_, fun _ => trivial⟩
  simp only [now, meets_pure, meets_bind, meets_query, ending_ok]
  cases hfound : s.challenges.find (right c tenantId token surface code s.clock) with
  | none =>
    unfold right at hfound
    rw [hfound]
    simp only [writeChallenges, meets_bind, meets_execute, ending_ok, steps_publish]
    exact ⟨.missed rfl, fun _ => trivial⟩
  | some e =>
    have hspent : SpentIn c tenantId token code surface s e { s with
        challenges := s.challenges.modify (right c tenantId token surface code s.clock)
          (consumed s.clock) (still_consumed _) } :=
      ⟨Table.mem_of_find hfound, Table.find_holds hfound, rfl, rfl, le_rfl⟩
    unfold right at hfound hspent
    rw [hfound]
    simp only [writeChallenges, meets_bind, meets_execute, meets_remember, meets_query, ending_ok]
    cases huser : byEmail tenantId e.email surface _ with
    | some user => exact opened_codes hspent huser
    | none =>
      refine meets_ite.mpr ⟨fun _ => ?_, fun hadmin => ?_⟩
      · simp only [meets_bind, ending_ok, steps_publish]
        refine ⟨hspent.codes ?_, fun _ => trivial⟩
        rintro _ ⟨⟩
      · exact joined_codes hspent (by cases surface <;> simp_all)

/-- A code that is due is written over the row that was found. -/
theorem renew_codes {call : Call} (asked : Asked) {found : EmailLoginChallenge}
    {moment expiresAt resendAt : ℕ}
    (hf : found ∈ s.challenges) (scope : found.scopeKey = c.vault.scopeDigest asked.scope)
    {P : EmailLoginChallenge → Prop} [∀ e, Decidable (P e)] :
    (do
      remember (fun m => { m with asked := m.asked.map (fun a => { a with row := some found.id }) })
      pass
      let live := fun e : EmailLoginChallenge => e.id == found.id && decide (e.resendAt ≤ moment)
      if ← query (fun s => (s.challenges.find live).isSome) then
        let t ← require .gone (← query (·.challenges.alter live
          (redrawn asked.token (c.vault.codeDigest asked.token asked.code) expiresAt resendAt)))
        execute (fun s => { s with challenges := t })
        remember (fun m => { m with asked := none })
        mailCode asked.email asked.code found
      else
        publish
        let row ← require .gone (← query (·.challenges.get found.id))
        if P row then raise (.validation "error.sign-in-code-wait") else pure row :
      Db EmailLoginChallenge).Meets (stepping (Codes c call))
      (ending (fun g a _ _ => a.2.spent = g.spent) fun _ _ _ _ => True)
      (asking asked) (asking asked) s s := by
  simp only [pass, meets_bind, meets_remember, meets_query, ending_ok, steps_yield, id_eq]
  refine ⟨.found hf scope, fun t => meets_ite.mpr ⟨fun hlive => ?_, fun _ => ?_⟩⟩
  · simp only [meets_bind, meets_query, ending_ok]
    cases halter : t.challenges.alter (fun e => e.id == found.id && decide (e.resendAt ≤ moment))
        (redrawn asked.token (c.vault.codeDigest asked.token asked.code) expiresAt resendAt) with
    | none => trivial
    | some codes =>
      simp only [mailCode, post, meets_require_some, meets_bind, meets_execute, meets_remember,
        meets_query, ending_ok, steps_publish]
      refine ⟨.renewed (show ({ asked with row := some found.id } : Asked).row = some found.id from rfl) ?_
        (fun e' => Table.mem_alter halter) rfl rfl, fun u => ?_⟩
      · intro e he
        simp only [Bool.and_eq_true, beq_iff_eq] at he
        exact he.1
      · cases u.challenges.get found.id with
        | none => trivial
        | some row => rfl
  · simp only [meets_bind, meets_query, ending_ok, steps_publish]
    refine ⟨.kept rfl rfl le_rfl, fun u => ?_⟩
    cases u.challenges.get found.id with
    | none => trivial
    | some row => exact meets_ite.mpr ⟨fun _ => trivial, fun _ => rfl⟩

theorem requestCode_codes (tenantId : Option ℕ) (email : String) (surface : AuthenticationSurface)
    (code : String) (s : Store) : (requestCode c tenantId email surface code).Meets
      (stepping (Codes c (.requestCode tenantId email surface code)))
      (ending (fun g a _ _ => a.2.spent = g.spent) fun _ _ _ _ => True)
      Memory.empty Memory.empty s s := by
  rw [requestCode, meets_bind]
  refine meets_ite.mpr ⟨fun _ => ?_, fun _ => trivial⟩
  simp only [now, draw, meets_pure, meets_bind, meets_query, meets_execute, meets_remember,
    ending_ok, steps_publish]
  refine ⟨.drew le_rfl (Nat.lt_succ_self _) rfl rfl rfl rfl rfl, fun t => ?_⟩
  have hscope : ∀ {t : Store} {found : EmailLoginChallenge}, t.challenges.find (fun e => e.scopeKey ==
      c.vault.scopeDigest (tenantId, surface, c.alphabet.lower email)) = some found →
      found.scopeKey = c.vault.scopeDigest (tenantId, surface, c.alphabet.lower email) := by
    intro t found hfound
    simpa using Table.find_holds hfound
  cases hfound : t.challenges.find (fun e => e.scopeKey ==
      c.vault.scopeDigest (tenantId, surface, c.alphabet.lower email)) with
  | some found =>
    exact renew_codes ⟨s.drawn, tenantId, surface, c.alphabet.lower email, code, none⟩
      (Table.mem_of_find hfound) (hscope hfound)
  | none =>
    simp only [pass, meets_bind, meets_query, ending_ok, steps_yield, id_eq]
    refine ⟨.kept rfl rfl le_rfl, fun u => ?_⟩
    cases hins : u.challenges.insert (fun id => (⟨id, tenantId, c.vault.scopeDigest (tenantId, surface,
        c.alphabet.lower email), surface, c.alphabet.lower email, s.drawn,
        c.vault.codeDigest s.drawn code, 0, s.clock + c.settings.email.codeTtl,
        s.clock + c.settings.email.resendInterval, none⟩ : EmailLoginChallenge)) with
    | some proposed =>
      obtain ⟨e, codes⟩ := proposed
      obtain ⟨rfl, -⟩ := Table.insert_eq_some hins
      simp only [mailCode, post, meets_bind, meets_execute, meets_remember, meets_query, ending_ok,
        steps_publish]
      refine ⟨.inserted (fun e' => Table.mem_insert hins) rfl rfl, fun w => ?_⟩
      cases w.challenges.get u.challenges.next with
      | none => trivial
      | some row => rfl
    | none =>
      simp only [meets_bind, meets_query, ending_ok, steps_yield, id_eq]
      refine ⟨.kept rfl rfl le_rfl, fun w => ?_⟩
      cases hagain : w.challenges.find (fun e => e.scopeKey ==
          c.vault.scopeDigest (tenantId, surface, c.alphabet.lower email)) with
      | some found =>
        exact renew_codes ⟨s.drawn, tenantId, surface, c.alphabet.lower email, code, none⟩
          (Table.mem_of_find hagain) (hscope hagain)
      | none => trivial

/-- Requests, confirmations, and time passing. -/
def Call.codes : Call → Bool
  | .requestCode .. | .confirmCode .. | .tick _ => true
  | _ => false

abbrev CodeSteps (c : Setup) (calls : List Call) : ℕ → Memory → Store → Memory → Store → Prop :=
  fun i m s m' t => ∃ call, calls[i]? = some call ∧ Codes c call m s m' t

abbrev CodeEnds (calls : List Call) :
    ℕ → Memory → Except Fault (Option User × Memory) → Store → Store → Prop :=
  fun i => ending (fun g a _ _ => ∃ call, calls[i]? = some call ∧ Signs call g a.1 a.2)
    fun _ _ _ _ => True

theorem stepping_codes {calls : List Call} (hcalls : ∀ call ∈ calls, call.codes = true) (s : Store) :
    Pool.Stepping (CodeSteps c calls) (CodeEnds calls) (sessions c calls s) := by
  have hmeets : ∀ call ∈ calls, ∀ t, (call.serve c).Meets (stepping (Codes c call))
      (ending (fun g a _ _ => Signs call g a.1 a.2) fun _ _ _ _ => True)
      Memory.empty Memory.empty t t := by
    intro call hmem t
    have hcodes := hcalls call hmem
    cases call with
    | requestCode tenantId email surface code =>
      refine (requestCode_codes tenantId email surface code t).bind ?_ fun _ _ _ _ _ => trivial
      intro g e m b v hspent
      refine ⟨hspent, by simp, ?_⟩
      rintro _ _ _ _ ⟨⟩
    | confirmCode tenantId token code surface =>
      refine (confirmCode_codes tenantId token code surface t).bind ?_ fun _ _ _ _ _ => trivial
      exact fun g user m b v hsigns => hsigns
    | tick by' =>
      simp only [Call.serve, silent, meets_bind, meets_execute, meets_pure, ending_ok, steps_publish]
      refine ⟨.kept rfl rfl le_rfl, fun t => ⟨rfl, by simp, ?_⟩⟩
      rintro _ _ _ _ ⟨⟩
    | _ => cases hcodes
  refine (Pool.stepping_calls (Call.serve c) (fun _ => Memory.empty) s calls hmeets).mono
    (fun _ _ _ _ _ h => h) ?_
  rintro i g (e | ⟨o, m⟩) b v ⟨call, hcall, hsigns⟩
  · trivial
  · exact ⟨call, hcall, hsigns⟩

end FastKit.Accounts
