import FastKit.Services.SocialLogin

/-! # What is asked of the accounts

Every entry point of the sign-in services is a call, and a call that opens a session answers
the account its token is minted of.
-/

namespace FastKit.Accounts
open Transaction Transaction.Program

inductive Call where
  | authenticate (tenantId : Option ℕ) (login password : String)
  | authenticateForPanel (tenantId : Option ℕ) (login password : String)
  | register (tenantId : Option ℕ) (request : SignUpRequest)
  | resendConfirmation (tenantId : Option ℕ) (login : String)
  | confirmSignUp (tenantId : Option ℕ) (token : ℕ)
  | updateMe (id : ℕ) (request : AccountUpdateRequest)
  | changePassword (id : ℕ) (currentPassword newPassword : String)
  | startPasswordReset (tenantId : Option ℕ) (login : String)
  | confirmPasswordReset (tenantId : Option ℕ) (token : ℕ) (newPassword : String)
  | createUser (payload : UserPayload) (operator : Option ℕ)
  | updateUser (id : ℕ) (payload : UserPayload) (operator : Option ℕ)
  | eraseUser (id : ℕ)
  | requestCode (tenantId : Option ℕ) (email : String) (surface : AuthenticationSurface)
      (code : String)
  | confirmCode (tenantId : Option ℕ) (token : ℕ) (code : String) (surface : AuthenticationSurface)
  | socialSignIn (attempt : SocialLoginAttempt) (profile : SocialProfile) (username : String)
  | connect (attempt : SocialLoginAttempt) (userId : ℕ) (profile : SocialProfile)
  | disconnect (userId : ℕ) (provider : SocialProvider) (surface : AuthenticationSurface)
  /-- Time passing. -/
  | tick (by' : ℕ)

/-- A call that answers with no session of its own. -/
def silent {α : Type} (program : Db α) : Db (Option User) := do
  let _ ← program
  pure none

def Call.serve (c : Setup) : Call → Db (Option User)
  | .authenticate tenantId login password => do
    pure (some (← Accounts.authenticate c tenantId login password))
  | .authenticateForPanel tenantId login password => do
    pure (some (← Accounts.authenticateForPanel c tenantId login password))
  | .register tenantId request => do
    let user ← Accounts.register c tenantId request.data
    pure (if user.status = .active then some user else none)
  | .resendConfirmation tenantId login => silent (Accounts.resendConfirmation c tenantId login)
  | .confirmSignUp tenantId token => do
    let (user, opened) ← Accounts.confirmSignUp tenantId token
    pure (if opened then some user else none)
  | .updateMe id request => silent (Accounts.updateMe c id request.data)
  | .changePassword id currentPassword newPassword => do
    pure (some (← Accounts.changePassword c id currentPassword newPassword))
  | .startPasswordReset tenantId login => silent (Accounts.startPasswordReset c tenantId login)
  | .confirmPasswordReset tenantId token newPassword =>
    silent (Accounts.confirmPasswordReset c tenantId token newPassword)
  | .createUser payload operator => silent (Accounts.createUser c payload.data operator)
  | .updateUser id payload operator => silent (Accounts.updateUser c id payload.data operator)
  | .eraseUser id => silent (Accounts.eraseUser c id)
  | .requestCode tenantId email surface code =>
    silent (Accounts.requestCode c tenantId email surface code)
  | .confirmCode tenantId token code surface => do
    pure (some (← Accounts.confirmCode c tenantId token code surface))
  | .socialSignIn attempt profile username => do
    pure (some (← Accounts.socialSignIn c attempt profile username))
  | .connect attempt userId profile => silent (Accounts.connect c attempt userId profile)
  | .disconnect userId provider surface => silent (Accounts.disconnect c userId provider surface)
  | .tick by' => silent (do
    execute (fun s => { s with clock := s.clock + by' })
    publish)

abbrev Sessions := Pool Memory Store Fault (Option User × Memory)

def sessions (c : Setup) (calls : List Call) (s : Store) : Sessions :=
  ⟨s, calls.map (fun call => session (call.serve c) Memory.empty s)⟩

/-- What a session token says: whose it is, and of which epoch. -/
structure Claims where
  sub : ℕ
  epoch : ℕ
  deriving DecidableEq

def createToken (user : User) : Claims := ⟨user.token, user.sessionEpoch⟩

def loadUser (claims : Claims) (s : Store) : Except Fault User :=
  match s.users.find (·.token == claims.sub) with
  | none => .error (.authentication "error.invalid-token")
  | some user =>
    if user.status = .erased then .error (.authentication "error.invalid-token")
    else if claims.epoch ≠ user.sessionEpoch then .error (.authentication "error.invalid-token")
    else if user.status = .blocked then .error (.authentication "error.account-blocked")
    else if user.status = .pending then .error (.authentication "error.account-pending")
    else .ok user

namespace Desk

theorem replicate_append_inj {α : Type} {x y z : α} (hy : x ≠ y) (hz : x ≠ z) :
    ∀ {n k : ℕ} {l r : List α},
      List.replicate n x ++ y :: l = List.replicate k x ++ z :: r → n = k ∧ y = z ∧ l = r
  | 0, 0, l, r, h => by simpa using h
  | 0, k + 1, l, r, h => absurd (List.cons.inj h).1.symm hy
  | n + 1, 0, l, r, h => absurd (List.cons.inj h).1 hz
  | n + 1, k + 1, l, r, h => by
    obtain ⟨hn, hrest⟩ := replicate_append_inj hy hz (List.cons.inj h).2
    exact ⟨by rw [hn], hrest⟩

def mark : AuthenticationSurface → Char
  | .site => 's'
  | .admin => 'a'

/-- A digest that writes its scope out. -/
def scopeText (scope : Option ℕ × AuthenticationSurface × String) : String :=
  String.ofList (List.replicate (scope.1.elim 0 (· + 1)) 't' ++ mark scope.2.1 :: scope.2.2.toList)

theorem scopeText_injective : Function.Injective scopeText := by
  rintro ⟨tenant, surface, email⟩ ⟨tenant', surface', email'⟩ h
  have hmark : ∀ surface, 't' ≠ mark surface := fun surface => by cases surface <;> decide
  obtain ⟨hn, hs, hl⟩ := replicate_append_inj (hmark _) (hmark _) (String.ofList_injective h)
  have htenant : tenant = tenant' := by
    cases tenant <;> cases tenant' <;> simp_all
  have hsurface : surface = surface' := by
    cases surface <;> cases surface' <;> first | rfl | cases hs
  obtain rfl : email = email' := String.toList_injective hl
  rw [htenant, hsurface]

/-- A vault that keeps its secrets by writing them down. -/
def vault : Vault where
  hash password _ := "#" ++ password
  hash_ne password salt h := by simpa using congrArg String.length h
  verify password hash := hash == "#" ++ password
  hex n := String.ofList (List.replicate n 'x')
  scopeDigest := scopeText
  scope_injective := scopeText_injective
  codeDigest token code := String.ofList (List.replicate token 'x' ++ '#' :: code.toList)

def alphabet : Alphabet := ⟨Char.isAlpha, Char.isDigit, String.toLower⟩

def settings (social : List (SocialProvider × MethodSettings)) : Settings where
  signInAttempts := 1
  signInCooldown := 60
  signInCooldownMax := 900
  confirmSignUp := true
  confirmSignUpInterval := 60
  passwordResetInterval := 60
  passwordResetTokenTtl := 3600
  email := ⟨⟨true, true, true⟩, 600, 60, 5⟩
  social := social

def setup (social : List (SocialProvider × MethodSettings)) : Setup :=
  ⟨settings social, alphabet, vault⟩

/-- An account with a username and a password. -/
def reader : User := { born 0 0 "#secret" with username := some "reader" }

def only (user : User) (h : user.id = 0) : Store :=
  ⟨0, 1, ⟨[user], 1, List.pairwise_singleton _ _, by simp [Keyed.id, h]⟩, .empty, .empty, []⟩

def nobody : Store := ⟨0, 0, .empty, .empty, .empty, []⟩

end Desk

end FastKit.Accounts
