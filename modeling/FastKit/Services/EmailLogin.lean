import FastKit.Services.Auth

/-! # Codes sent by e-mail

A code is one row for each brand, surface and address. Drawing it again replaces its token, and
confirming it is one conditioned update: it is spent where the digest is right, and counted
where it is wrong.
-/

namespace FastKit.Accounts
open Transaction Transaction.Program

variable (c : Setup)

def requireEmail (surface : AuthenticationSurface) : Db Unit :=
  if c.settings.email.available surface then pure ()
  else raise (.notFound "error.authentication-method-disabled")

theorem requireEmail_reads (surface : AuthenticationSurface) : (requireEmail c surface).Reads :=
  reads_ite (reads_pure ()) (reads_raise _)

/-- The accounts a surface of a brand reaches. -/
def inScope (tenantId : Option ℕ) (surface : AuthenticationSurface) (u : User) : Bool :=
  match surface with
  | .admin => belongsToTenant tenantId u || u.tenantId.isNone
  | .site => belongsToTenant tenantId u

def byEmail (tenantId : Option ℕ) (email : String) (surface : AuthenticationSurface) :
    Store → Option User :=
  firstOperator (fun u => u.email == some email && inScope tenantId surface u)

def ensureAccess (user : User) (surface : AuthenticationSurface) : Db Unit :=
  if user.status ≠ .active then
    raise (.authentication (if user.status = .blocked then "error.account-blocked"
      else "error.invalid-credentials"))
  else if surface = .admin ∧ user.role.panel = false then
    raise (.authentication "error.panel-not-allowed")
  else pure ()

theorem ensureAccess_reads (user : User) (surface : AuthenticationSurface) :
    (ensureAccess user surface).Reads :=
  reads_ite (reads_raise _) (reads_ite (reads_raise _) (reads_pure ()))

def ensureScope (user : User) (tenantId : Option ℕ) (surface : AuthenticationSurface) : Db Unit :=
  if surface = .admin ∧ user.tenantId = none then pure ()
  else if user.tenantId ≠ tenantId then raise (.permission "error.account-of-another-brand")
  else pure ()

theorem ensureScope_reads (user : User) (tenantId : Option ℕ) (surface : AuthenticationSurface) :
    (ensureScope user tenantId surface).Reads :=
  reads_ite (reads_pure ()) (reads_ite (reads_raise _) (reads_pure ()))

/-- Opens a session of an account that was proved, where it still is what was proved. -/
def signedIn (user : User) (surface : AuthenticationSurface) (tenantId : Option ℕ) : Db User := do
  ensureAccess user surface
  ensureScope user tenantId surface
  let claims := fun u : User => u.id == user.id && u.status == .active &&
    u.sessionEpoch == user.sessionEpoch && inScope tenantId surface u
  let claimed ← query (fun s => (s.users.find claims).isSome)
  writeUsers claims signedInto still_signedInto
  publish
  if !claimed then raise (.authentication "error.invalid-credentials")
  else
    let row ← getUser user.id
    ensureAccess row surface
    ensureScope row tenantId surface
    if row.sessionEpoch ≠ user.sessionEpoch then raise (.authentication "error.invalid-credentials")
    else pure row

/-- A code drawn for a challenge: its token, the digest of the code, and until when. -/
def redrawn (token : ℕ) (codeDigest : String) (expiresAt resendAt : ℕ) (e : EmailLoginChallenge) :
    EmailLoginChallenge :=
  { e with
    token := token
    codeDigest := codeDigest
    attempts := 0
    expiresAt := expiresAt
    resendAt := resendAt
    consumedAt := none }

def mailCode (address code : String) (challenge : EmailLoginChallenge) :
    Db EmailLoginChallenge := do
  post ⟨"sign-in-code", none, some address, none, some code⟩
  publish
  require .gone (← query (·.challenges.get challenge.id))

/-- `code` is the one that was drawn for the request. -/
def requestCode (tenantId : Option ℕ) (email : String) (surface : AuthenticationSurface)
    (code : String) : Db EmailLoginChallenge := do
  requireEmail c surface
  let moment ← now
  let address := c.alphabet.lower email
  let scopeKey := c.vault.scopeDigest (tenantId, surface, address)
  let token ← draw
  remember (fun m => { m with asked := some ⟨token, tenantId, surface, address, code, none⟩ })
  publish
  let digest := c.vault.codeDigest token code
  let expiresAt := moment + c.settings.email.codeTtl
  let resendAt := moment + c.settings.email.resendInterval
  let renew := fun found : EmailLoginChallenge => show Db EmailLoginChallenge from do
    remember (fun m => { m with asked := m.asked.map (fun a => { a with row := some found.id }) })
    pass
    let live := fun e : EmailLoginChallenge => e.id == found.id && decide (e.resendAt ≤ moment)
    if ← query (fun s => (s.challenges.find live).isSome) then
      let t ← require .gone
        (← query (·.challenges.alter live (redrawn token digest expiresAt resendAt)))
      execute (fun s => { s with challenges := t })
      remember (fun m => { m with asked := none })
      mailCode address code found
    else
      publish
      let row ← require .gone (← query (·.challenges.get found.id))
      if row.consumedAt.isSome ∨ row.expiresAt ≤ moment ∨
          c.settings.email.maxAttempts ≤ row.attempts then
        raise (.validation "error.sign-in-code-wait")
      else pure row
  match ← query (fun s => s.challenges.find (·.scopeKey == scopeKey)) with
  | some found => renew found
  | none =>
    pass
    match ← query (·.challenges.insert (fun id => ⟨id, tenantId, scopeKey, surface, address, token,
      digest, 0, expiresAt, resendAt, none⟩)) with
    | some (proposed, t) =>
      execute (fun s => { s with challenges := t })
      remember (fun m => { m with asked := none })
      mailCode address code proposed
    | none =>
      pass
      match ← query (fun s => s.challenges.find (·.scopeKey == scopeKey)) with
      | some found => renew found
      | none => raise .gone

/-- A code that may still be answered where the token was drawn. -/
def live (tenantId : Option ℕ) (token : ℕ) (surface : AuthenticationSurface) (moment : ℕ)
    (e : EmailLoginChallenge) : Bool :=
  e.token == token && e.tenantId == tenantId && e.surface == surface && e.consumedAt.isNone &&
    decide (moment < e.expiresAt) && decide (e.attempts < c.settings.email.maxAttempts)

def consumed (moment : ℕ) (e : EmailLoginChallenge) : EmailLoginChallenge :=
  { e with consumedAt := some moment }

theorem still_consumed (moment : ℕ) : Still (consumed moment) := fun _ => ⟨rfl, rfl⟩

/-- A code with one more wrong answer. -/
def missed (e : EmailLoginChallenge) : EmailLoginChallenge := { e with attempts := e.attempts + 1 }

theorem still_missed : Still missed := fun _ => ⟨rfl, rfl⟩

/-- An account whose address was proved before it was confirmed: what was written of it by
whoever signed it up is forgotten. -/
def opened (u : User) : User :=
  { u with
    status := .active
    passwordHash := ""
    sessionEpoch := u.sessionEpoch + 1
    confirmationToken := none
    confirmationSentAt := none
    recoveryToken := none
    recoveryTokenCreatedAt := none }

theorem still_opened : Still opened := fun _ => ⟨rfl, rfl⟩

/-- The account of an address nobody signed up with. -/
def newcomer (tenantId : Option ℕ) (email username : Option String) (id token : ℕ) : User :=
  { born id token "" with tenantId := tenantId, email := email, username := username }

/-- Opens the account where it waits to be confirmed, and answers it as its row then says. -/
def openPending (user : User) : Db User := do
  if user.status = .pending then
    writeUsers (fun u => u.id == user.id && u.status == .pending) opened still_opened
    let row ← require .gone (← query (·.users.get user.id))
    keepAccount (some row)
    pure row
  else
    keepAccount (some user)
    pure user

/-- The row of a code that was answered is held up to the commit. -/
def confirmCode (tenantId : Option ℕ) (token : ℕ) (code : String) (surface : AuthenticationSurface) :
    Db User := do
  requireEmail c surface
  let moment ← now
  let expected := c.vault.codeDigest token code
  let alive := live c tenantId token surface moment
  match ← query (fun s => s.challenges.find (fun e => alive e && e.codeDigest == expected)) with
  | none =>
    writeChallenges (fun e => alive e && e.codeDigest != expected) missed still_missed
    publish
    raise (.validation "error.sign-in-code-invalid")
  | some challenge =>
    writeChallenges (fun e => alive e && e.codeDigest == expected) (consumed moment) (still_consumed _)
    remember (fun m => { m with spent := some ⟨token, tenantId, surface, challenge.email, moment⟩ })
    match ← query (byEmail tenantId challenge.email surface) with
    | some user =>
      let user ← openPending user
      publish
      signedIn user surface tenantId
    | none =>
      if surface = .admin then
        publish
        raise (.authentication "error.panel-not-allowed")
      else
        ensureFree c.alphabet .email challenge.email tenantId none
        let user ← addUser (newcomer tenantId (some challenge.email) none) .gone
        keepAccount (some user)
        publish
        signedIn user surface tenantId

end FastKit.Accounts
