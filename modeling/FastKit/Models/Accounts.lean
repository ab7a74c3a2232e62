import FastKit.Calendar
import FastKit.Transaction.Pool
import FastKit.Transaction.Table

/-! # Accounts

The rows the sign-in services read and write, the settings they ask, and what a session
remembers of the account it works on. What is drawn at random is a number nobody drew before.
-/

namespace FastKit.Accounts
open Transaction Transaction.Program

inductive UserRole where
  | normal | editor | administrator
  deriving DecidableEq, Repr

def UserRole.panel : UserRole → Bool
  | .editor | .administrator => true
  | .normal => false

inductive UserStatus where
  | pending | active | blocked | erased
  deriving DecidableEq, Repr

inductive AuthenticationSurface where
  | site | admin
  deriving DecidableEq, Repr

inductive SocialProvider where
  | google | apple | facebook | instagram | github | linkedin | microsoft | discord
  deriving DecidableEq, Repr

inductive IdentityField where
  | username | email | document | mobilePhone
  deriving DecidableEq, Repr

/-- `LOGIN_UNIQUE_FIELDS` -/
def IdentityField.alreadyUsed : IdentityField → String
  | .username => "error.username-already-used"
  | .email => "error.email-already-used"
  | .document => "error.document-already-used"
  | .mobilePhone => "error.mobile-phone-already-used"

structure User where
  id : ℕ
  token : ℕ
  tenantId : Option ℕ
  username : Option String
  email : Option String
  document : Option String
  mobilePhone : Option String
  passwordHash : String
  role : UserRole
  status : UserStatus
  recoveryToken : Option ℕ
  recoveryTokenCreatedAt : Option ℕ
  pendingEmail : Option String
  confirmationToken : Option ℕ
  confirmationSentAt : Option ℕ
  failedSignIns : ℕ
  signInBlockedUntil : Option ℕ
  sessionEpoch : ℕ
  deriving DecidableEq

/-- `getattr(user, name)` -/
def User.identity (u : User) : IdentityField → Option String
  | .username => u.username
  | .email => u.email
  | .document => u.document
  | .mobilePhone => u.mobilePhone

def User.hasPassword (u : User) : Bool := u.passwordHash != ""

/-- The address a letter of this account proves: the one it waits on, or its own. -/
def User.awaited (u : User) : Option String := u.pendingEmail.or u.email

/-- What the unique indexes of the accounts keep apart. -/
inductive UserKey where
  | token (token : ℕ)
  | identity (field : IdentityField) (tenantId : Option ℕ) (value : String)
  deriving DecidableEq

def User.keys (u : User) : List UserKey :=
  .token u.token :: [IdentityField.username, .email, .document, .mobilePhone].filterMap
    (fun field => (u.identity field).map (.identity field u.tenantId))

instance : Keyed User UserKey := ⟨(·.id), User.keys⟩

structure SocialIdentity where
  id : ℕ
  tenantId : Option ℕ
  userId : ℕ
  provider : SocialProvider
  subject : String
  deriving DecidableEq

inductive SocialIdentityKey where
  | subject (tenantId : Option ℕ) (provider : SocialProvider) (subject : String)
  | user (userId : ℕ) (provider : SocialProvider)
  deriving DecidableEq

instance : Keyed SocialIdentity SocialIdentityKey :=
  ⟨(·.id), fun i => [.subject i.tenantId i.provider i.subject, .user i.userId i.provider]⟩

structure EmailLoginChallenge where
  id : ℕ
  tenantId : Option ℕ
  scopeKey : String
  surface : AuthenticationSurface
  email : String
  token : ℕ
  codeDigest : String
  attempts : ℕ
  expiresAt : ℕ
  resendAt : ℕ
  consumedAt : Option ℕ
  deriving DecidableEq

inductive ChallengeKey where
  | scope (scopeKey : String)
  | token (token : ℕ)
  deriving DecidableEq

instance : Keyed EmailLoginChallenge ChallengeKey :=
  ⟨(·.id), fun c => [.scope c.scopeKey, .token c.token]⟩

/-- What the mail queue was handed: the template, where it goes, and what it carries. -/
structure Letter where
  template : String
  userId : Option ℕ
  address : Option String
  token : Option ℕ
  code : Option String
  deriving DecidableEq

/-- `drawn` is the next number to be drawn at random. -/
structure Store where
  clock : ℕ
  drawn : ℕ
  users : Table User
  identities : Table SocialIdentity
  challenges : Table EmailLoginChallenge
  letters : List Letter

structure MethodSettings where
  enabled : Bool
  site : Bool
  admin : Bool

structure EmailLoginSettings extends MethodSettings where
  codeTtl : ℕ
  resendInterval : ℕ
  maxAttempts : ℕ

/-- The settings the services read, with durations on the clock of the store. -/
structure Settings where
  signInAttempts : ℕ
  signInCooldown : ℕ
  signInCooldownMax : ℕ
  confirmSignUp : Bool
  confirmSignUpInterval : ℕ
  passwordResetInterval : ℕ
  passwordResetTokenTtl : ℕ
  email : EmailLoginSettings
  social : List (SocialProvider × MethodSettings)

/-- How texts are read: `str.isalpha`, `str.isdigit` and `str.lower` of the language. -/
structure Alphabet where
  alpha : Char → Bool
  digit : Char → Bool
  lower : String → String

/-- What a secret is worth: the hash of a password under a salt, its check, the text of what is
drawn, and the digests of a login scope and of a code. Two scopes have two digests. -/
structure Vault where
  hash : String → ℕ → String
  hash_ne : ∀ password salt, hash password salt ≠ ""
  verify : String → String → Bool
  hex : ℕ → String
  scopeDigest : Option ℕ × AuthenticationSurface × String → String
  scope_injective : Function.Injective scopeDigest
  codeDigest : ℕ → String → String

/-- What the services are configured with. -/
structure Setup where
  settings : Settings
  alphabet : Alphabet
  vault : Vault

/-- A wrong guess that was counted: of which account, when, which one it was, and until when
the account is to answer nothing for it. -/
structure Guess where
  account : ℕ
  moment : ℕ
  count : ℕ
  window : Option ℕ
  deriving DecidableEq

/-- A code that was spent: of which token, where and when. -/
structure Spent where
  token : ℕ
  tenantId : Option ℕ
  surface : AuthenticationSurface
  email : String
  moment : ℕ
  deriving DecidableEq

/-- A letter that was answered: its token, the account it named, and the address it proved. -/
structure Answered where
  token : ℕ
  account : ℕ
  address : Option String
  deriving DecidableEq

/-- A code that was drawn and not written yet: its token, where and for which address, the code,
and the row it is to replace. -/
structure Asked where
  token : ℕ
  tenantId : Option ℕ
  surface : AuthenticationSurface
  email : String
  code : String
  row : Option ℕ
  deriving DecidableEq

/-- The account as a session last read it and whether its password was the one given, the
wrong guess it counted and did not answer yet, the letter it answered, the code it spent and
the code it is about to write. -/
structure Memory where
  account : Option User
  proved : Bool
  guess : Option Guess
  answered : Option Answered
  spent : Option Spent
  asked : Option Asked

def Memory.empty : Memory := ⟨none, false, none, none, none, none⟩

inductive Fault where
  | conflict (code : String) (field : Option IdentityField)
  | validation (code : String)
  | authentication (code : String)
  | permission (code : String)
  | notFound (code : String)
  /-- A row that was loaded is gone. -/
  | gone
  deriving DecidableEq

abbrev Db := Program Memory Store Fault

def now : Db ℕ := query (·.clock)

/-- Another statement of the session, before which others run. -/
def pass : Db Unit := yield id

/-- What `generate_token`, `uuid4` and a salt draw. -/
def draw : Db ℕ := do
  let n ← query (·.drawn)
  execute (fun s => { s with drawn := n + 1 })
  pure n

/-- The account as it was read. -/
def keepAccount (user : Option User) : Db Unit := remember (fun m => { m with account := user })

/-- Writes the rows of accounts where they stand. -/
def writeUsers (p : User → Bool) (f : User → User) (h : Still f) : Db Unit :=
  execute (fun s => { s with users := s.users.modify p f h })

/-- Writes the row of an account with its keys, which the unique indexes may refuse. -/
def alterUser (id : ℕ) (f : User → User) (refused : Fault) : Db Unit := do
  let t ← require refused (← query (·.users.alter (·.id == id) f))
  execute (fun s => { s with users := t })

def writeChallenges (p : EmailLoginChallenge → Bool) (f : EmailLoginChallenge → EmailLoginChallenge)
    (h : Still f) : Db Unit :=
  execute (fun s => { s with challenges := s.challenges.modify p f h })

def deleteIdentities (p : SocialIdentity → Bool) : Db Unit :=
  execute (fun s => { s with identities := s.identities.erase p })

def deleteChallenges (p : EmailLoginChallenge → Bool) : Db Unit :=
  execute (fun s => { s with challenges := s.challenges.erase p })

def post (letter : Letter) : Db Unit :=
  execute (fun s => { s with letters := s.letters ++ [letter] })

/-- `db.refresh`: the account as its row now says. -/
def refresh (user : User) : Db User := do
  let row ← require .gone (← query (·.users.get user.id))
  keepAccount (some row)
  pure row

end FastKit.Accounts
