import FastKit.Models.Accounts

/-! # The user service

An account is written by the panel, by itself and by the services that sign it in, and erased
by replacing the person. A write about an account holds its row first, so from there on to the
commit it is one segment.
-/

namespace FastKit.Accounts
open Transaction Transaction.Program

/-- What an account writes about itself: a field left out stays as it is. -/
structure AccountUpdateRequest where
  username : Option (Option String)
  email : Option (Option String)
  document : Option (Option String)
  mobilePhone : Option (Option String)

structure SignUpRequest extends AccountUpdateRequest where
  password : String

/-- What the panel writes of an account. A status written by hand never erases it. -/
structure UserPayload extends AccountUpdateRequest where
  tenantId : Option (Option ℕ)
  password : Option String
  role : Option UserRole
  status : Option UserStatus
  operated : status ≠ some .erased

/-- What a write names of an account, by the panel, by the account or by a service. -/
structure UserData extends AccountUpdateRequest where
  tenantId : Option (Option ℕ)
  password : Option String
  role : Option UserRole
  status : Option UserStatus
  pendingEmail : Option (Option String)
  confirmationToken : Option (Option ℕ)

def AccountUpdateRequest.data (r : AccountUpdateRequest) : UserData :=
  ⟨r, none, none, none, none, none, none⟩

def SignUpRequest.data (r : SignUpRequest) : UserData :=
  { r.toAccountUpdateRequest.data with password := some r.password }

def UserPayload.data (p : UserPayload) : UserData :=
  ⟨p.toAccountUpdateRequest, p.tenantId, p.password, p.role, p.status, none, none⟩

/-- `data.get(name)` of an identity. -/
def UserData.identity (d : UserData) : IdentityField → Option (Option String)
  | .username => d.username
  | .email => d.email
  | .document => d.document
  | .mobilePhone => d.mobilePhone

def filled (value : Option String) : Option String := value.filter (· ≠ "")

/-- An identity is checked the way it is stored. -/
def normalize (a : Alphabet) (d : UserData) : UserData :=
  { d with
    username := d.username.map filled
    email := d.email.map (fun value => (filled value).map a.lower)
    document := d.document.map filled
    mobilePhone := d.mobilePhone.map filled }

/-- What an operator of one brand writes belongs to that brand. -/
def stamped (d : UserData) (operator : Option ℕ) : UserData :=
  match operator with
  | none => d
  | some tenant => { d with tenantId := some (some tenant) }

/-- The value a write leaves an account with. -/
def declared (d : UserData) (instance' : Option User) (field : IdentityField) : Option String :=
  (d.identity field).getD (instance'.bind (·.identity field))

def declaredTenant (d : UserData) (instance' : Option User) : Option ℕ :=
  d.tenantId.getD (instance'.bind (·.tenantId))

/-- The attributes a write names, set on the row. -/
def UserData.write (d : UserData) (u : User) : User :=
  { u with
    tenantId := d.tenantId.getD u.tenantId
    username := d.username.getD u.username
    email := d.email.getD u.email
    document := d.document.getD u.document
    mobilePhone := d.mobilePhone.getD u.mobilePhone
    role := d.role.getD u.role
    status := d.status.getD u.status
    pendingEmail := d.pendingEmail.getD u.pendingEmail
    confirmationToken := d.confirmationToken.getD u.confirmationToken }

/-- An address an operator writes is the address, so one the account was still waiting on is
forgotten. -/
def forgetAwaited (u : User) : User :=
  { u with
    pendingEmail := none
    confirmationToken := none
    confirmationSentAt := none
    recoveryToken := none
    recoveryTokenCreatedAt := none }

/-- A new password ends the sessions the old one opened. -/
def rehashed (hash : String) (u : User) : User :=
  { u with
    passwordHash := hash
    sessionEpoch := u.sessionEpoch + 1
    recoveryToken := none
    recoveryTokenCreatedAt := none }

/-- The row as `prepare` and the flush after it leave it, for a payload that is normalized. -/
def edited (d : UserData) (hash : Option String) (u : User) : User :=
  let written := d.write u
  let settled := match d.email with
    | some email => if email = u.email then written else forgetAwaited written
    | none => written
  match hash with
  | some hash => rehashed hash settled
  | none => settled

/-- What neither a forgotten address nor a new password touches is as the write leaves it. -/
theorem edited_write {α : Type} (f : User → α) (forgets : ∀ u, f (forgetAwaited u) = f u)
    (rehashes : ∀ hash u, f (rehashed hash u) = f u) (d : UserData) (hash : Option String)
    (u : User) : f (edited d hash u) = f (d.write u) := by
  have hsettled : f (match d.email with
      | some email => if email = u.email then d.write u else forgetAwaited (d.write u)
      | none => d.write u) = f (d.write u) := by
    cases d.email with
    | none => rfl
    | some email =>
      dsimp only
      split_ifs
      · rfl
      · exact forgets _
  cases hash with
  | none => exact hsettled
  | some hash => exact (rehashes _ _).trans hsettled

section
variable (d : UserData) (hash : Option String) (u : User)

@[simp] theorem edited_id : (edited d hash u).id = u.id :=
  edited_write (·.id) (fun _ => rfl) (fun _ _ => rfl) d hash u

@[simp] theorem edited_token : (edited d hash u).token = u.token :=
  edited_write (·.token) (fun _ => rfl) (fun _ _ => rfl) d hash u

@[simp] theorem edited_tenantId : (edited d hash u).tenantId = declaredTenant d (some u) :=
  edited_write (·.tenantId) (fun _ => rfl) (fun _ _ => rfl) d hash u

@[simp] theorem edited_role : (edited d hash u).role = d.role.getD u.role :=
  edited_write (·.role) (fun _ => rfl) (fun _ _ => rfl) d hash u

@[simp] theorem edited_status : (edited d hash u).status = d.status.getD u.status :=
  edited_write (·.status) (fun _ => rfl) (fun _ _ => rfl) d hash u

@[simp] theorem edited_identity (field : IdentityField) :
    (edited d hash u).identity field = declared d (some u) field := by
  rw [edited_write (·.identity field) (fun _ => by cases field <;> rfl)
    (fun _ _ => by cases field <;> rfl)]
  cases field <;> rfl

@[simp] theorem edited_passwordHash : (edited d hash u).passwordHash = hash.getD u.passwordHash := by
  cases hash with
  | some hash => rfl
  | none =>
    unfold edited
    cases d.email with
    | none => rfl
    | some email =>
      dsimp only
      split_ifs <;> rfl

end

/-- `only_digits` -/
def onlyDigits (a : Alphabet) (value : String) : String := String.ofList (value.toList.filter a.digit)

/-- Any of the four identities, typed in the one field a sign in has. -/
def identifiedBy (a : Alphabet) (login : String) (u : User) : Bool :=
  if login.toList.any a.alpha then u.username == some login || u.email == some (a.lower login)
  else u.document == some (onlyDigits a login) || u.mobilePhone == some (onlyDigits a login)

def belongsToTenant (tenantId : Option ℕ) (u : User) : Bool := u.tenantId == tenantId

/-- The account another one of the scope is, typed as a login. -/
def taken (a : Alphabet) (value : String) (tenantId : Option ℕ) (except : Option ℕ) (s : Store) :
    Option User :=
  s.users.find (fun u => identifiedBy a value u && belongsToTenant tenantId u && some u.id != except)

def ensureFree (a : Alphabet) (field : IdentityField) (value : String) (tenantId : Option ℕ)
    (except : Option ℕ) : Db Unit := do
  match ← query (taken a value tenantId except) with
  | some _ => raise (.conflict field.alreadyUsed (some field))
  | none => pure ()

theorem ensureFree_reads {a : Alphabet} (field : IdentityField) (value : String)
    (tenantId except : Option ℕ) : (ensureFree a field value tenantId except).Reads :=
  (reads_query _).bind fun o => by
    cases o with
    | none => exact reads_pure ()
    | some _ => exact reads_raise _

/-- The identities a write names, each checked in its turn. -/
def ensureEachFree (a : Alphabet) (d : UserData) (tenantId except : Option ℕ) :
    List IdentityField → Db Unit
  | [] => pure ()
  | field :: rest => do
    match (d.identity field).join with
    | some value =>
      ensureFree a field value tenantId except
      ensureEachFree a d tenantId except rest
    | none => ensureEachFree a d tenantId except rest

theorem ensureEachFree_reads {a : Alphabet} (d : UserData) (tenantId except : Option ℕ)
    (fields : List IdentityField) : (ensureEachFree a d tenantId except fields).Reads := by
  induction fields with
  | nil => exact reads_pure ()
  | cons field rest ih =>
    unfold ensureEachFree
    cases (d.identity field).join with
    | none => exact ih
    | some value => exact (ensureFree_reads field value tenantId except).bind fun _ => ih

def identityFields : List IdentityField := [.username, .email, .document, .mobilePhone]

/-- A login of one of the four is what an account is reached by. -/
def ensureIdentity (d : UserData) (instance' : Option User) : Db Unit :=
  if identityFields.any (fun field => (declared d instance' field).isSome) then pure ()
  else raise (.validation "error.at-least-one-identity")

theorem ensureIdentity_reads (d : UserData) (instance' : Option User) :
    (ensureIdentity d instance').Reads := reads_ite (reads_pure ()) (reads_raise _)

/-- A provider that is offered on a surface a role opens. -/
def MethodSettings.opens (m : MethodSettings) (role : UserRole) : Bool :=
  m.enabled && (m.site || m.admin && role.panel)

def MethodSettings.available (m : MethodSettings) : AuthenticationSurface → Bool
  | .site => m.enabled && m.site
  | .admin => m.enabled && m.admin

/-- The providers of the settings a test holds of. -/
def enabledProviders (settings : Settings) (p : MethodSettings → Bool) : List SocialProvider :=
  (settings.social.filter (fun entry => p entry.2)).map (·.1)

def connectedTo (userId : ℕ) (providers : List SocialProvider) (s : Store) : Bool :=
  (s.identities.find (fun i => i.userId == userId && providers.contains i.provider)).isSome

/-- `error.last-sign-in-method`, where an account would be left with nothing to sign in by. -/
def ensureWayIn (c : Setup) (d : UserData) (instance' : User) : Db Unit := do
  if instance'.hasPassword || (d.password.filter (· ≠ "")).isSome ||
      (declared d (some instance') .email).isSome then pure ()
  else if ← query (connectedTo instance'.id
      (enabledProviders c.settings (·.opens instance'.role))) then pure ()
  else raise (.validation "error.last-sign-in-method")

theorem ensureWayIn_reads (c : Setup) (d : UserData) (instance' : User) :
    (ensureWayIn c d instance').Reads :=
  reads_ite (reads_pure ()) ((reads_query _).bind fun _ => reads_ite (reads_pure ()) (reads_raise _))

/-- The identities of an account follow it to the brand it moves to. -/
def moveIdentities (userId : ℕ) (tenantId : Option ℕ) : Db Unit := do
  let t ← require (.conflict "error.social-identity-in-use" none)
    (← query (·.identities.alter (·.userId == userId) (fun i => { i with tenantId := tenantId })))
  execute (fun s => { s with identities := t })

/-- An account that was erased is not written anymore. -/
def hold (userId : ℕ) : Db User := do
  let row ← require (.conflict "error.account-erased" none) (← query (·.users.get userId))
  if row.status = .erased then raise (.conflict "error.account-erased" none) else pure row

/-- The account that is held is a row that was not erased. -/
theorem hold_meets {γ : Type} {C : Contract γ Memory Store} {g : γ} {m : Memory} {b v : Store}
    {userId : ℕ} {post : γ → Except Fault (User × Memory) → Store → Store → Prop}
    (hok : ∀ row, v.users.get userId = some row → row.status ≠ .erased → post g (.ok (row, m)) b v)
    (herr : ∀ e, post g (.error e) b v) : (hold userId).Meets C post g m b v := by
  simp only [hold, meets_bind, meets_query, ending_ok]
  cases hrow : v.users.get userId with
  | none => exact herr _
  | some row => exact meets_ite.mpr ⟨fun _ => herr _, fun hne => hok row hrow hne⟩

theorem hold_reads (userId : ℕ) : (hold userId).Reads :=
  (reads_query _).bind fun o => (reads_require _ o).bind fun row =>
    reads_ite (reads_raise _) (reads_pure row)

/-- What a write is checked for. An account it is about is held and read again first, and the
answer is that account. -/
def validate (c : Setup) (data : UserData) (instanceId : Option ℕ) : Db (Option User) := do
  let instance' ← match instanceId with
    | some id => do pure (some (← hold id))
    | none => pure none
  let normalized := normalize c.alphabet data
  let tenantId := declaredTenant normalized instance'
  ensureEachFree c.alphabet normalized tenantId instanceId identityFields
  ensureIdentity normalized instance'
  match instance' with
  | none => pure none
  | some row =>
    ensureWayIn c normalized row
    if tenantId = row.tenantId then pure (some row)
    else
      moveIdentities row.id tenantId
      pure (some row)

def hashOf (v : Vault) (password : Option String) : Db (Option String) := do
  match password.filter (· ≠ "") with
  | some password =>
    let salt ← draw
    pure (some (v.hash password salt))
  | none => pure none

/-- An account as it is born, before a write names its fields. -/
def born (id token : ℕ) (hash : String) : User where
  id := id
  token := token
  tenantId := none
  username := none
  email := none
  document := none
  mobilePhone := none
  passwordHash := hash
  role := .normal
  status := .active
  recoveryToken := none
  recoveryTokenCreatedAt := none
  pendingEmail := none
  confirmationToken := none
  confirmationSentAt := none
  failedSignIns := 0
  signInBlockedUntil := none
  sessionEpoch := 0

/-- `INSERT` of an account, with a token of its own. -/
def addUser (make : ℕ → ℕ → User) (refused : Fault) : Db User := do
  let token ← draw
  let (user, t) ← require refused (← query (·.users.insert (fun id => make id token)))
  execute (fun s => { s with users := t })
  pure user

/-- The account as a reader finds it after the write. -/
def getUser (id : ℕ) : Db User := do
  let row ← require (.notFound "error.not-found") (← query (·.users.get id))
  keepAccount (some row)
  pure row

def createUser (c : Setup) (data : UserData) (operator : Option ℕ) : Db User := do
  let data := stamped data operator
  let _ ← validate c data none
  let hash ← require (.conflict "error.duplicated-record" none) (← hashOf c.vault data.password)
  let user ← addUser (fun id token => (normalize c.alphabet data).write (born id token hash))
    (.conflict "error.duplicated-record" none)
  publish
  getUser user.id

/-- A move into a brand waits until nothing points at the account. -/
def ensureReferrersStillReach (data : UserData) (instance' : User) : Db Unit :=
  match data.tenantId with
  | none | some none => pure ()
  | some (some tenant) => do
    if some tenant = instance'.tenantId then pure ()
    else if ← query (fun s => (s.identities.find (·.userId == instance'.id)).isSome) then
      raise (.validation "error.record-still-referenced")
    else pure ()

theorem ensureReferrersStillReach_reads (data : UserData) (instance' : User) :
    (ensureReferrersStillReach data instance').Reads := by
  unfold ensureReferrersStillReach
  split
  · exact reads_pure ()
  · exact reads_pure ()
  · exact reads_ite (reads_pure ()) ((reads_query _).bind fun _ =>
      reads_ite (reads_raise _) (reads_pure ()))

def updateUser (c : Setup) (id : ℕ) (data : UserData) (operator : Option ℕ) : Db User := do
  let loaded ← require (.notFound "error.not-found") (← query (fun s =>
    s.users.find (fun u => u.id == id && (operator.isNone || u.tenantId == operator))))
  keepAccount (some loaded)
  let data := stamped data operator
  ensureReferrersStillReach data loaded
  pass
  let _ ← validate c data (some id)
  let hash ← hashOf c.vault data.password
  alterUser id (edited (normalize c.alphabet data) hash) (.conflict "error.duplicated-record" none)
  publish
  getUser id

/-- The person replaced: what is drawn stands where they were named. -/
def erased (hex hash : String) (token : ℕ) (u : User) : User :=
  { u with
    username := some ("erased-" ++ hex)
    email := some (hex ++ "@erased.invalid")
    document := some (hex.take 11).toString
    mobilePhone := some (hex.take 16).toString
    passwordHash := hash
    token := token
    recoveryToken := none
    recoveryTokenCreatedAt := none
    pendingEmail := none
    confirmationToken := none
    confirmationSentAt := none
    status := .erased }

/-- What the person did is theirs and goes. -/
def forgetBehaviour (user : User) : Db Unit := do
  deleteIdentities (·.userId == user.id)
  deleteChallenges (fun e => e.tenantId == user.tenantId && some e.email == user.email)

def eraseUser (c : Setup) (id : ℕ) : Db Unit := do
  let user ← hold id
  let drawn ← draw
  let salt ← draw
  let token ← draw
  alterUser id (erased (c.vault.hex drawn) (c.vault.hash (c.vault.hex salt) salt) token)
    (.conflict "error.duplicated-record" none)
  forgetBehaviour user
  publish

def findByLogin (a : Alphabet) (login : String) (tenantId : Option ℕ) (s : Store) : Option User :=
  s.users.find (fun u => identifiedBy a login u && belongsToTenant tenantId u)

/-- The first of the rows `p` holds of, panel roles first and a brand's own before the ones of
no brand. -/
def firstOperator (p : User → Bool) (s : Store) : Option User :=
  ((s.users.find (fun u => p u && u.role.panel && u.tenantId.isSome)).or
    (s.users.find (fun u => p u && u.role.panel))).or
    ((s.users.find (fun u => p u && u.tenantId.isSome)).or (s.users.find p))

theorem firstOperator_holds {p : User → Bool} {s : Store} {user : User}
    (h : firstOperator p s = some user) :
    user ∈ s.users ∧ p user = true := by
  have found : ∀ q : User → Bool, (∀ u, q u = true → p u = true) → s.users.find q = some user →
      user ∈ s.users ∧ p user = true :=
    fun q hq hf => ⟨Table.mem_of_find hf, hq _ (Table.find_holds hf)⟩
  simp only [firstOperator, Option.or_eq_some_iff] at h
  rcases h with (h | ⟨-, h⟩) | ⟨-, h | ⟨-, h⟩⟩
  · exact found _ (by simp +contextual) h
  · exact found _ (by simp +contextual) h
  · exact found _ (by simp +contextual) h
  · exact found _ (fun _ h => h) h

/-- An operator of a brand signs in on that brand and one of no brand signs in on every one. -/
def findOperator (a : Alphabet) (login : String) (tenantId : Option ℕ) : Store → Option User :=
  firstOperator (fun u => identifiedBy a login u && (belongsToTenant tenantId u || u.tenantId.isNone))

def findByRecoveryToken (token : ℕ) (tenantId : Option ℕ) (s : Store) : Option User :=
  s.users.find (fun u => u.recoveryToken == some token && belongsToTenant tenantId u)

def findByConfirmationToken (token : ℕ) (tenantId : Option ℕ) (s : Store) : Option User :=
  s.users.find (fun u => u.confirmationToken == some token && belongsToTenant tenantId u)

end FastKit.Accounts
