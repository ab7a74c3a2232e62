import FastKit.Services.EmailLogin

/-! # Social sign-in

An identity of a provider is connected to one account of a brand, and an account is connected
to a provider once. What the provider answers is given: the subject and the address it proved.
-/

namespace FastKit.Accounts
open Transaction Transaction.Program

variable (c : Setup)

structure SocialProfile where
  subject : String
  email : Option String

/-- What a browser was sent to a provider for. -/
structure SocialLoginAttempt where
  tenantId : Option ℕ
  userId : Option ℕ
  sessionEpoch : ℕ
  surface : AuthenticationSurface
  provider : SocialProvider

def requireSocial (provider : SocialProvider) (surface : AuthenticationSurface) : Db Unit :=
  if (enabledProviders c.settings (·.available surface)).contains provider then pure ()
  else raise (.notFound "error.authentication-method-disabled")

theorem requireSocial_reads (provider : SocialProvider) (surface : AuthenticationSurface) :
    (requireSocial c provider surface).Reads := reads_ite (reads_pure ()) (reads_raise _)

/-- The account of an identity, where it is one the surface reaches. -/
def identityOwner (attempt : SocialLoginAttempt) (subject : String) (s : Store) : Option User :=
  firstOperator (fun u => inScope attempt.tenantId attempt.surface u &&
    (s.identities.find (fun i => i.userId == u.id && i.provider == attempt.provider &&
      i.subject == subject)).isSome) s

/-- The account and the identity are inserted up to one commit. `username` is the name drawn
for an account without an address. -/
def socialSignIn (attempt : SocialLoginAttempt) (profile : SocialProfile) (username : String) :
    Db User := do
  requireSocial c attempt.provider attempt.surface
  match ← query (identityOwner attempt profile.subject) with
  | some user =>
    keepAccount (some user)
    pass
    signedIn user attempt.surface attempt.tenantId
  | none =>
    if ← query (fun s => profile.email.any
        (fun email => (byEmail attempt.tenantId email attempt.surface s).isSome)) then
      raise (.validation "error.social-link-required")
    else if attempt.surface = .admin then raise (.authentication "error.panel-not-allowed")
    else
      match profile.email with
      | some email => ensureFree c.alphabet .email email attempt.tenantId none
      | none => pure ()
      pass
      let user ← addUser (newcomer attempt.tenantId profile.email
        (if profile.email.isSome then none else some username))
        (.conflict "error.social-identity-in-use" none)
      match ← query (fun s => s.identities.find (fun i => i.tenantId == attempt.tenantId &&
        i.provider == attempt.provider && i.subject == profile.subject)) with
      | some linked =>
        revert
        pass
        let user ← getUser linked.userId
        signedIn user attempt.surface attempt.tenantId
      | none =>
        let (_, t) ← require (.conflict "error.social-identity-in-use" none)
          (← query (·.identities.insert (fun id =>
            ⟨id, user.tenantId, user.id, attempt.provider, profile.subject⟩)))
        execute (fun s => { s with identities := t })
        keepAccount (some user)
        publish
        signedIn user attempt.surface attempt.tenantId

/-- An account whose session is open is connected to a provider. -/
def connect (attempt : SocialLoginAttempt) (userId : ℕ) (profile : SocialProfile) : Db User := do
  requireSocial c attempt.provider attempt.surface
  let loaded ← require (.authentication "error.social-attempt-invalid")
    (← query (·.users.get userId))
  keepAccount (some loaded)
  if loaded.sessionEpoch ≠ attempt.sessionEpoch then
    raise (.authentication "error.social-attempt-invalid")
  else
    ensureAccess loaded attempt.surface
    pass
    let user ← hold userId
    ensureAccess user attempt.surface
    ensureScope user attempt.tenantId attempt.surface
    if user.sessionEpoch ≠ attempt.sessionEpoch then
      raise (.authentication "error.social-attempt-invalid")
    else
      match ← query (fun s => s.identities.find (fun i => i.userId == user.id &&
        i.provider == attempt.provider)) with
      | some linked =>
        if linked.subject ≠ profile.subject then
          raise (.validation "error.social-provider-already-connected")
        else
          keepAccount (some user)
          publish
          pure user
      | none =>
        let (_, t) ← require (.conflict "error.social-identity-in-use" none)
          (← query (·.identities.insert (fun id =>
            ⟨id, user.tenantId, user.id, attempt.provider, profile.subject⟩)))
        execute (fun s => { s with identities := t })
        keepAccount (some user)
        publish
        pure user

/-- An account loses a provider where it is left with another way in. -/
def disconnect (userId : ℕ) (provider : SocialProvider) (surface : AuthenticationSurface) :
    Db Unit := do
  let user ← hold userId
  ensureAccess user surface
  let enabled := enabledProviders c.settings (·.available surface)
  let otherMethods ← query (connectedTo user.id (enabled.filter (· ≠ provider)))
  let emailAvailable := user.email.any (· ≠ "") && c.settings.email.available surface
  if !user.hasPassword && !emailAvailable && !otherMethods then
    raise (.validation "error.last-sign-in-method")
  else
    deleteIdentities (fun i => i.userId == user.id && i.provider == provider)
    publish

end FastKit.Accounts
