import FastKit.Services.Users

/-! # The authentication service

A password is checked against the account as it was loaded, and what is written after the
check is conditioned on the row still saying what was checked. A letter proves the address it
is written to, and its token goes with whatever moves that address.
-/

namespace FastKit.Accounts
open Transaction Transaction.Program

variable (c : Setup)

/-- What a wrong guess costs, by how many were made. -/
def Settings.waiting (settings : Settings) (failedSignIns : ℕ) : ℕ :=
  min (settings.signInCooldown * 2 ^ (failedSignIns - settings.signInAttempts))
    settings.signInCooldownMax

def guessed (u : User) : User := { u with failedSignIns := u.failedSignIns + 1 }

theorem still_guessed : Still guessed := fun _ => ⟨rfl, rfl⟩

/-- A row that answers nothing until a moment. -/
def blockedUntil (moment : ℕ) (u : User) : User := { u with signInBlockedUntil := some moment }

theorem still_blockedUntil (moment : ℕ) : Still (blockedUntil moment) := fun _ => ⟨rfl, rfl⟩

def signedInto (u : User) : User := { u with failedSignIns := 0, signInBlockedUntil := none }

theorem still_signedInto : Still signedInto := fun _ => ⟨rfl, rfl⟩

/-- A wrong password is counted by the database, and the window that follows is written back by
this side. -/
def countFailure (user : User) : Db Unit := do
  let moment ← now
  match ← query (·.users.get user.id) with
  | none =>
    publish
    raise .gone
  | some row =>
    writeUsers (·.id == user.id) guessed still_guessed
    remember (fun m => { m with guess := some ⟨user.id, moment, row.failedSignIns + 1, none⟩ })
    publish
    let row ← refresh user
    if row.failedSignIns < c.settings.signInAttempts then pure ()
    else
      let window := (← now) + c.settings.waiting row.failedSignIns
      remember (fun m => { m with guess := m.guess.map (fun g => { g with window := some window }) })
      pass
      let _ ← require .gone (← query (·.users.get user.id))
      writeUsers (·.id == user.id) (blockedUntil window) (still_blockedUntil _)
      remember (fun m => { m with guess := none })
      publish

def blocked (user : User) (moment : ℕ) : Bool := user.signInBlockedUntil.any (moment < ·)

def ensureUsable (user : User) : Db Unit :=
  match user.status with
  | .blocked => raise (.authentication "error.account-blocked")
  | .pending => raise (.authentication "error.account-pending")
  | _ => pure ()

theorem ensureUsable_reads (user : User) : (ensureUsable user).Reads := by
  unfold ensureUsable
  cases user.status with
  | blocked => exact reads_raise _
  | pending => exact reads_raise _
  | active => exact reads_pure ()
  | erased => exact reads_pure ()

/-- The row still says what a password was checked against. -/
def stillSays (user u : User) : Bool :=
  u.id == user.id && u.passwordHash == user.passwordHash && u.sessionEpoch == user.sessionEpoch &&
    u.status == .active

/-- The password is the one of the account, as it was loaded. -/
def settled (user : Option User) (password : String) : Bool :=
  user.any (fun u => u.hasPassword && c.vault.verify password u.passwordHash)

/-- The final write of a sign-in, which only lands where the row still says what was checked. -/
def claimSignIn (user : User) : Db User := do
  let claimed ← query (fun s => (s.users.find (stillSays user)).isSome)
  writeUsers (stillSays user) signedInto still_signedInto
  remember (fun m => { m with proved := false })
  publish
  if !claimed then raise (.authentication "error.invalid-credentials")
  else
    let row ← getUser user.id
    if row.passwordHash ≠ user.passwordHash ∨ row.sessionEpoch ≠ user.sessionEpoch ∨
        row.status ≠ .active then raise (.authentication "error.invalid-credentials")
    else pure row

/-- The password is checked while others run, against the account as it was loaded. -/
def settleSignIn (user : Option User) (password : String) : Db User := do
  remember (fun m => { m with account := user, proved := settled c user password })
  pass
  match user with
  | none => raise (.authentication "error.invalid-credentials")
  | some user =>
    if settled c (some user) password = false then
      countFailure c user
      raise (.authentication "error.invalid-credentials")
    else if blocked user (← now) then raise (.authentication "error.too-many-attempts")
    else
      ensureUsable user
      claimSignIn user

def authenticate (tenantId : Option ℕ) (login password : String) : Db User := do
  settleSignIn c (← query (findByLogin c.alphabet login tenantId)) password

def authenticateForPanel (tenantId : Option ℕ) (login password : String) : Db User := do
  let user ← settleSignIn c (← query (findOperator c.alphabet login tenantId)) password
  if user.role.panel then pure user else raise (.authentication "error.panel-not-allowed")

/-- The accounts a confirmation letter still answers for. -/
def awaiting (u : User) : Bool := u.status == .pending || u.pendingEmail.isSome

/-- Nothing was written to the address for an interval. -/
def waited (sent : Option ℕ) (interval moment : ℕ) : Bool := sent.all (· + interval < moment)

/-- A row whose last letter carries the token. -/
def confirmationDrawn (token moment : ℕ) (u : User) : User :=
  { u with confirmationToken := some token, confirmationSentAt := some moment }

theorem still_confirmationDrawn (token moment : ℕ) : Still (confirmationDrawn token moment) :=
  fun _ => ⟨rfl, rfl⟩

/-- Takes the right to write to an address, with the account as it is after. -/
def claimConfirmation (user : User) : Db (Bool × User) := do
  let moment ← now
  let token ← draw
  let may := fun u : User => u.id == user.id && (awaiting u &&
    waited u.confirmationSentAt c.settings.confirmSignUpInterval moment)
  let claimed ← query (fun s => (s.users.find may).isSome)
  writeUsers may (confirmationDrawn token moment) (still_confirmationDrawn _ _)
  publish
  let row ← refresh user
  pure (claimed, row)

/-- Writes the address the one letter that proves it, where this caller took the window. -/
def mailConfirmation (user : User) : Db User := do
  let (claimed, user) ← claimConfirmation c user
  if !claimed then pure user
  else
    pass
    match user.pendingEmail with
    | some address =>
      post ⟨"address-confirmation", some user.id, some address, user.confirmationToken, none⟩
    | none =>
      post ⟨"account-confirmation", some user.id, user.email, user.confirmationToken, none⟩
    publish
    pure user

/-- Only an address has to be proved. -/
def confirmationIsAskedOf (email : Option String) : Bool :=
  c.settings.confirmSignUp && email.any (· ≠ "")

def register (tenantId : Option ℕ) (data : UserData) : Db User := do
  let status := if confirmationIsAskedOf c data.email.join then .pending else .active
  let user ← createUser c { data with
    tenantId := some tenantId
    role := some .normal
    status := some status } none
  if user.status = .pending then mailConfirmation c user else pure user

/-- What an account writes about itself, where a new address waits for that address to answer. -/
def settleAccount (user : User) (data : UserData) : Db User := do
  let address := data.email.join.getD ""
  let lowered := c.alphabet.lower address
  let moved := confirmationIsAskedOf c (some address) && some lowered != user.email &&
    some lowered != user.pendingEmail
  let data := if address ≠ "" ∧ some lowered = user.pendingEmail then { data with email := none }
    else data
  if moved then
    ensureFree c.alphabet .email address user.tenantId (some user.id)
    pass
    let updated ← updateUser c user.id { data with
      email := none
      pendingEmail := some (some lowered)
      confirmationToken := some none } none
    mailConfirmation c updated
  else updateUser c user.id data none

/-- What an account whose session is open writes about itself. -/
def updateMe (id : ℕ) (data : UserData) : Db User := do
  let user ← getUser id
  pass
  settleAccount c user data

def resendConfirmation (tenantId : Option ℕ) (login : String) : Db Unit := do
  match ← query (findByLogin c.alphabet login tenantId) with
  | none => pure ()
  | some user =>
    keepAccount (some user)
    if (user.status == .pending && user.email.isSome) || user.pendingEmail.isSome then
      pass
      let _ ← mailConfirmation c user
    else pure ()

def confirmed (forgets : Bool) (u : User) : User :=
  { u with
    status := if u.status = .pending then .active else u.status
    email := u.awaited
    pendingEmail := none
    confirmationToken := none
    confirmationSentAt := none
    recoveryToken := if forgets then none else u.recoveryToken
    recoveryTokenCreatedAt := if forgets then none else u.recoveryTokenCreatedAt }

/-- The token is the address saying it is the address. -/
def confirmSignUp (tenantId : Option ℕ) (token : ℕ) : Db (User × Bool) := do
  match ← query (findByConfirmationToken token tenantId) with
  | none => raise (.validation "error.confirmation-token-invalid")
  | some user =>
    keepAccount (some user)
    if !awaiting user then raise (.validation "error.confirmation-token-invalid")
    else
      pass
      match ← query (·.users.get user.id) with
      | none => raise (.validation "error.confirmation-token-invalid")
      | some row =>
        if awaiting row && row.confirmationToken == some token then
          alterUser user.id (confirmed user.pendingEmail.isSome)
            (.conflict "error.email-already-used" none)
          remember (fun m => { m with answered := some ⟨token, row.id, row.awaited⟩ })
          publish
          let row ← refresh user
          pure (row, user.status == .pending)
        else raise (.validation "error.confirmation-token-invalid")

theorem still_rehashed (hash : String) : Still (rehashed hash) := fun _ => ⟨rfl, rfl⟩

/-- A new password ends every session the old one opened. -/
def settlePassword (user : User) (newPassword : String) : Db User := do
  let salt ← draw
  publish
  let hash := c.vault.hash newPassword salt
  if ← query (fun s => (s.users.find (stillSays user)).isSome) then
    writeUsers (stillSays user) (rehashed hash) (still_rehashed _)
    publish
    let row ← refresh user
    if row.passwordHash ≠ hash ∨ row.sessionEpoch ≠ user.sessionEpoch + 1 ∨ row.status ≠ .active then
      raise (.authentication "error.invalid-credentials")
    else pure row
  else raise (.authentication "error.invalid-credentials")

/-- An account whose session is open changes its password. -/
def changePassword (id : ℕ) (currentPassword newPassword : String) : Db User := do
  let user ← getUser id
  pass
  if c.vault.verify currentPassword user.passwordHash then settlePassword c user newPassword
  else raise (.validation "error.current-password-invalid")

/-- A row whose recovery letter carries the token. -/
def recoveryDrawn (token moment : ℕ) (u : User) : User :=
  { u with recoveryToken := some token, recoveryTokenCreatedAt := some moment }

theorem still_recoveryDrawn (token moment : ℕ) : Still (recoveryDrawn token moment) :=
  fun _ => ⟨rfl, rfl⟩

def claimRecovery (user : User) : Db (Bool × User) := do
  let moment ← now
  let token ← draw
  let may := fun u : User => u.id == user.id &&
    waited u.recoveryTokenCreatedAt c.settings.passwordResetInterval moment
  let claimed ← query (fun s => (s.users.find may).isSome)
  writeUsers may (recoveryDrawn token moment) (still_recoveryDrawn _ _)
  publish
  let row ← refresh user
  pure (claimed, row)

def startPasswordReset (tenantId : Option ℕ) (login : String) : Db Unit := do
  match ← query (findByLogin c.alphabet login tenantId) with
  | none => pure ()
  | some user =>
    keepAccount (some user)
    if user.email.isNone then pure ()
    else
      pass
      let (claimed, user) ← claimRecovery c user
      if claimed then
        pass
        post ⟨"password-reset", some user.id, user.email, user.recoveryToken, none⟩
        publish
      else pure ()

/-- The account a recovery link still opens. -/
def recoverable (tenantId : Option ℕ) (token : ℕ) : Db User := do
  match ← query (findByRecoveryToken token tenantId) with
  | none => raise (.validation "error.recovery-token-invalid")
  | some user =>
    keepAccount (some user)
    match user.recoveryTokenCreatedAt with
    | none => raise (.validation "error.recovery-token-invalid")
    | some created =>
      if created + c.settings.passwordResetTokenTtl < (← now) then
        raise (.validation "error.recovery-token-expired")
      else pure user

/-- Answering the letter proves the address, so an account waiting on it opens. -/
def recovered (hash : String) (u : User) : User :=
  { rehashed hash u with
    status := if u.status = .pending then .active else u.status
    confirmationToken := none
    confirmationSentAt := none
    failedSignIns := 0
    signInBlockedUntil := none }

theorem still_recovered (hash : String) : Still (recovered hash) := fun _ => ⟨rfl, rfl⟩

def confirmPasswordReset (tenantId : Option ℕ) (token : ℕ) (newPassword : String) : Db Unit := do
  let user ← recoverable c tenantId token
  let salt ← draw
  publish
  let spends := fun u : User => u.id == user.id && u.recoveryToken == some token
  if ← query (fun s => (s.users.find spends).isSome) then
    writeUsers spends (recovered (c.vault.hash newPassword salt)) (still_recovered _)
    publish
    let _ ← refresh user
  else
    publish
    raise (.validation "error.recovery-token-invalid")

end FastKit.Accounts
