import FastKit.Services.Accounts
import FastKit.Transaction.Steps

/-! # What a call writes of the accounts

Every segment of every call changes one account in one of a few ways, adds one, writes a
letter, or leaves the accounts as they are.
-/

namespace FastKit.Accounts
open Transaction Transaction.Program

variable {c : Setup} {g m m' : Memory} {b v s t : Store} {row row' user : User} {α β : Type}

/-- A write that names an address to wait for takes the token of the letter before away, and
none hands a token out. -/
structure UserData.Quiet (d : UserData) : Prop where
  token : d.confirmationToken = none ∨ d.confirmationToken = some none
  awaits : d.confirmationToken = none → d.pendingEmail = none

/-- What one write makes of an account, where `old` was to be drawn next before it and `new`
is after it. -/
inductive Change (old new : ℕ) (row : User) : User → Prop where
  | guessed : Change old new row (guessed row)
  | waits (window : ℕ) : Change old new row (blockedUntil window row)
  | signed : Change old new row (signedInto row)
  | mailed {token : ℕ} (moment : ℕ) (low : old ≤ token) (high : token < new) :
      Change old new row (confirmationDrawn token moment row)
  | confirmed (forgets : Bool) : Change old new row (confirmed forgets row)
  | rehashed (hash : String) : Change old new row (rehashed hash row)
  | recovering (token moment : ℕ) : Change old new row (recoveryDrawn token moment row)
  | recovered (hash : String) : Change old new row (recovered hash row)
  | edited {d : UserData} (hash : Option String) (quiet : d.Quiet) :
      Change old new row (edited d hash row)
  | erased {token : ℕ} (hex hash : String) (low : old ≤ token) (high : token < new) :
      Change old new row (erased hex hash token row)
  | opened : Change old new row (opened row)

variable {old new : ℕ}

/-- A write keeps the address or forgets the one that was waited on, and may rehash. -/
theorem edited_cases (d : UserData) (hash : Option String) (u : User) : ∃ w,
    (edited d hash u = w ∨ ∃ word, edited d hash u = rehashed word w) ∧
    (w = forgetAwaited (d.write u) ∨ (w = d.write u ∧ d.email.getD u.email = u.email)) := by
  unfold edited
  cases hash with
  | none =>
    cases d.email with
    | none => exact ⟨_, .inl rfl, .inr ⟨rfl, rfl⟩⟩
    | some email =>
      dsimp only
      split_ifs with hsame
      · exact ⟨_, .inl rfl, .inr ⟨rfl, hsame⟩⟩
      · exact ⟨_, .inl rfl, .inl rfl⟩
  | some word =>
    cases d.email with
    | none => exact ⟨_, .inr ⟨word, rfl⟩, .inr ⟨rfl, rfl⟩⟩
    | some email =>
      dsimp only
      split_ifs with hsame
      · exact ⟨_, .inr ⟨word, rfl⟩, .inr ⟨rfl, hsame⟩⟩
      · exact ⟨_, .inr ⟨word, rfl⟩, .inl rfl⟩

/-- A write that rehashes an account raises its epoch. -/
theorem edited_epoch (d : UserData) (hash : Option String) (u : User) :
    u.sessionEpoch ≤ (edited d hash u).sessionEpoch ∧
      ((edited d hash u).passwordHash ≠ u.passwordHash →
        u.sessionEpoch < (edited d hash u).sessionEpoch) := by
  obtain ⟨w, h, hw⟩ := edited_cases d hash u
  have hsame : w.sessionEpoch = u.sessionEpoch ∧ w.passwordHash = u.passwordHash := by
    rcases hw with rfl | ⟨rfl, -⟩ <;> exact ⟨rfl, rfl⟩
  rcases h with h | ⟨_, h⟩
  · rw [h]
    exact ⟨hsame.1.ge, fun hne => absurd hsame.2 hne⟩
  · have hlt : u.sessionEpoch < (edited d hash u).sessionEpoch := by
      rw [h, ← hsame.1]
      exact Nat.lt_succ_self _
    exact ⟨hlt.le, fun _ => hlt⟩

/-- A write keeps the token of a letter only with the address it was written to. -/
theorem edited_letter {d : UserData} (quiet : d.Quiet) (hash : Option String) (u : User) {token : ℕ}
    (ht : (edited d hash u).confirmationToken = some token) :
    u.confirmationToken = some token ∧ (edited d hash u).awaited = u.awaited := by
  obtain ⟨w, h, hw⟩ := edited_cases d hash u
  have hsame : (edited d hash u).confirmationToken = w.confirmationToken ∧
      (edited d hash u).awaited = w.awaited := by
    rcases h with h | ⟨_, h⟩ <;> rw [h] <;> exact ⟨rfl, rfl⟩
  rw [hsame.1] at ht
  rw [hsame.2]
  rcases hw with rfl | ⟨rfl, hemail⟩
  · cases ht
  · rcases quiet.token with htoken | htoken
    · simp only [UserData.write, htoken, Option.getD_none] at ht
      exact ⟨ht, by simp [UserData.write, User.awaited, quiet.awaits htoken, hemail]⟩
    · simp only [UserData.write, htoken, Option.getD_some] at ht
      cases ht

theorem Change.id (h : Change old new row row') : row'.id = row.id := by
  cases h with
  | edited hash quiet => exact edited_id _ _ _
  | _ => rfl

/-- A write keeps the token of an account and raises the epoch where it rehashes it, or draws
a token nobody had. -/
theorem Change.epoch (h : Change old new row row') :
    (row'.token = row.token ∧ row.sessionEpoch ≤ row'.sessionEpoch ∧
      (row'.passwordHash ≠ row.passwordHash → row.sessionEpoch < row'.sessionEpoch)) ∨
    (old ≤ row'.token ∧ row'.token < new) := by
  cases h with
  | guessed | waits | signed | mailed | confirmed | recovering =>
    exact .inl ⟨rfl, le_rfl, fun hne => absurd rfl hne⟩
  | rehashed | recovered | opened =>
    exact .inl ⟨rfl, Nat.le_succ _, fun _ => Nat.lt_succ_self _⟩
  | edited hash quiet => exact .inl ⟨edited_token _ _ _, edited_epoch _ _ _⟩
  | erased hex hash low high => exact .inr ⟨low, high⟩

/-- The token of a letter stays only with the address it was written to, or is a new one. -/
theorem Change.letter (h : Change old new row row') {token : ℕ}
    (ht : row'.confirmationToken = some token) :
    (row.confirmationToken = some token ∧ row'.awaited = row.awaited) ∨
    (old ≤ token ∧ token < new) := by
  cases h with
  | guessed | waits | signed | rehashed | recovering => exact .inl ⟨ht, rfl⟩
  | mailed moment low high =>
    obtain rfl := Option.some.inj ht
    exact .inr ⟨low, high⟩
  | confirmed | recovered | erased | opened => cases ht
  | edited hash quiet => exact .inl (edited_letter quiet hash row ht)

/-- A letter that carries the token of a confirmation. -/
def Letter.confirms (letter : Letter) : Bool :=
  letter.template == "address-confirmation" || letter.template == "account-confirmation"

/-- What a session recalls after a segment it recalled before it, or read of a row. -/
structure Recalls (m m' : Memory) (s t : Store) : Prop where
  answered : m'.answered = m.answered
  account : ∀ u ∈ m'.account, u ∈ s.users ∨ u ∈ t.users ∨ u ∈ m.account

/-- The row of one account is written where `p` holds of it. -/
structure Rewrites (id : ℕ) (p : User → Bool) (f : User → User) (s t : Store) : Prop where
  one : ∀ r, p r = true → r.id = id
  rows : ∀ row', row' ∈ t.users ↔ ∃ row ∈ s.users, (if p row then f row else row) = row'
  letters : t.letters = s.letters
  drawn : s.drawn ≤ t.drawn

/-- An account is added with a token nobody had, and no letter was written to it. -/
structure Adds (user : User) (s t : Store) : Prop where
  low : s.drawn ≤ user.token
  high : user.token < t.drawn
  quiet : user.confirmationToken = none
  rows : ∀ row, row ∈ t.users ↔ row ∈ s.users ∨ row = user
  letters : t.letters = s.letters

/-- What a segment of a call does to the accounts and their letters. -/
inductive Writes : Memory → Store → Memory → Store → Prop where
  | kept {m m' : Memory} {s t : Store} (recalls : Recalls m m' s t) (users : t.users = s.users)
      (letters : t.letters = s.letters) (drawn : s.drawn ≤ t.drawn) : Writes m s m' t
  | wrote {m m' : Memory} {s t : Store} {id : ℕ} {p : User → Bool} {f : User → User}
      (recalls : Recalls m m' s t) (rewrites : Rewrites id p f s t)
      (change : ∀ row ∈ s.users, p row = true → Change s.drawn t.drawn row (f row)) :
      Writes m s m' t
  | answered {m m' : Memory} {s t : Store} {row : User} {token : ℕ} (forgets : Bool)
      (found : row ∈ s.users) (waits : awaiting row = true)
      (current : row.confirmationToken = some token)
      (rewrites : Rewrites row.id (·.id == row.id) (confirmed forgets) s t)
      (account : ∀ u ∈ m'.account, u ∈ s.users ∨ u ∈ t.users ∨ u ∈ m.account)
      (answers : m'.answered = some ⟨token, row.id, row.awaited⟩) : Writes m s m' t
  | added {m m' : Memory} {s t : Store} {user : User} (recalls : Recalls m m' s t)
      (adds : Adds user s t) : Writes m s m' t
  | posted {m m' : Memory} {s t : Store} {letter : Letter} (recalls : Recalls m m' s t)
      (proves : letter.confirms = true → ∃ user ∈ m.account, letter.userId = some user.id ∧
        letter.address = user.awaited ∧ letter.token = user.confirmationToken)
      (users : t.users = s.users) (letters : t.letters = s.letters ++ [letter])
      (drawn : s.drawn ≤ t.drawn) : Writes m s m' t

theorem Writes.drawn (h : Writes m s m' t) : s.drawn ≤ t.drawn := by
  cases h with
  | kept _ _ _ drawn => exact drawn
  | wrote _ rewrites _ => exact rewrites.drawn
  | answered _ _ _ _ rewrites _ _ => exact rewrites.drawn
  | added _ adds => exact (adds.low.trans_lt adds.high).le
  | posted _ _ _ _ drawn => exact drawn

/-- A row after a segment is one of before, one of before that was written, or a new one, and
the rows that were written are one account's. -/
theorem Writes.one (h : Writes m s m' t) : ∃ id, ∀ row' ∈ t.users, row' ∈ s.users ∨
    (row'.id = id ∧ ∃ row ∈ s.users, Change s.drawn t.drawn row row') ∨ Adds row' s t := by
  have hrewrites : ∀ {id : ℕ} {p : User → Bool} {f : User → User}, Rewrites id p f s t →
      (∀ row ∈ s.users, p row = true → Change s.drawn t.drawn row (f row)) →
      ∃ id, ∀ row' ∈ t.users, row' ∈ s.users ∨
        (row'.id = id ∧ ∃ row ∈ s.users, Change s.drawn t.drawn row row') ∨ Adds row' s t := by
    intro id p f rewrites change
    refine ⟨id, fun row' hrow' => ?_⟩
    obtain ⟨row, hmem, rfl⟩ := (rewrites.rows row').mp hrow'
    split_ifs with hp
    · exact .inr (.inl ⟨(change row hmem hp).id.trans (rewrites.one row hp), row, hmem,
        change row hmem hp⟩)
    · exact .inl hmem
  cases h with
  | kept _ users _ _ => exact ⟨0, fun _ hrow => .inl (users ▸ hrow)⟩
  | posted _ _ users _ _ => exact ⟨0, fun _ hrow => .inl (users ▸ hrow)⟩
  | wrote _ rewrites change => exact hrewrites rewrites change
  | answered forgets _ _ _ rewrites _ _ => exact hrewrites rewrites fun _ _ _ => .confirmed forgets
  | added _ adds =>
    refine ⟨0, fun row' hrow' => ?_⟩
    rcases (adds.rows row').mp hrow' with hmem | rfl
    · exact .inl hmem
    · exact .inr (.inr adds)

theorem Writes.back (h : Writes m s m' t) (hrow : row' ∈ t.users) : row' ∈ s.users ∨
    (∃ row ∈ s.users, Change s.drawn t.drawn row row') ∨ Adds row' s t := by
  obtain ⟨id, hone⟩ := h.one
  rcases hone row' hrow with hmem | ⟨-, hchange⟩ | adds
  · exact .inl hmem
  · exact .inr (.inl hchange)
  · exact .inr (.inr adds)

/-- Every row stays, as it is or written. -/
theorem Writes.forth (h : Writes m s m' t) (hrow : row ∈ s.users) :
    ∃ row' ∈ t.users, row' = row ∨ Change s.drawn t.drawn row row' := by
  have hrewrites : ∀ {id : ℕ} {p : User → Bool} {f : User → User}, Rewrites id p f s t →
      (∀ row ∈ s.users, p row = true → Change s.drawn t.drawn row (f row)) →
      ∃ row' ∈ t.users, row' = row ∨ Change s.drawn t.drawn row row' := by
    intro id p f rewrites change
    refine ⟨_, (rewrites.rows _).mpr ⟨row, hrow, rfl⟩, ?_⟩
    split_ifs with hp
    · exact .inr (change row hrow hp)
    · exact .inl rfl
  cases h with
  | kept _ users _ _ => exact ⟨row, users.symm ▸ hrow, .inl rfl⟩
  | posted _ _ users _ _ => exact ⟨row, users.symm ▸ hrow, .inl rfl⟩
  | wrote _ rewrites change => exact hrewrites rewrites change
  | answered forgets _ _ _ rewrites _ _ => exact hrewrites rewrites fun _ _ _ => .confirmed forgets
  | added _ adds => exact ⟨row, (adds.rows row).mpr (.inl hrow), .inl rfl⟩

/-- What a session recalls is a row of before or after its segment, or what it recalled. -/
theorem Writes.recalls (h : Writes m s m' t) {u : User} (hu : u ∈ m'.account) :
    u ∈ s.users ∨ u ∈ t.users ∨ u ∈ m.account := by
  cases h with
  | kept recalls _ _ _ => exact recalls.account u hu
  | wrote recalls _ _ => exact recalls.account u hu
  | answered _ _ _ _ _ account _ => exact account u hu
  | added recalls _ => exact recalls.account u hu
  | posted recalls _ _ _ _ => exact recalls.account u hu

theorem recalls_refl (m : Memory) (s t : Store) : Recalls m m s t := ⟨rfl, fun _ h => .inr (.inr h)⟩

/-- What a segment under way left of the accounts: it wrote nothing of them yet. -/
structure Kept (g m : Memory) (b v : Store) : Prop where
  recalls : Recalls g m b b
  users : v.users = b.users
  letters : v.letters = b.letters
  drawn : b.drawn ≤ v.drawn

theorem kept_refl (m : Memory) (s : Store) : Kept m m s s := ⟨recalls_refl m s s, rfl, rfl, le_rfl⟩

theorem Kept.onto (h : Kept g m b v) (hm : m'.answered = m.answered)
    (ha : ∀ u ∈ m'.account, u ∈ m.account ∨ u ∈ t.users) : Recalls g m' b t := by
  refine ⟨hm.trans h.recalls.answered, fun u hu => ?_⟩
  rcases ha u hu with hu | hu
  · rcases h.recalls.account u hu with hu | hu | hu
    · exact .inl hu
    · exact .inl hu
    · exact .inr (.inr hu)
  · exact .inr (.inl hu)

theorem Kept.writes (h : Kept g m b v) : Writes g b m v :=
  .kept (h.onto rfl fun _ hu => .inl hu) h.users h.letters h.drawn

theorem Kept.yields (h : Kept g m b v) : Writes g b m b :=
  .kept h.recalls rfl rfl le_rfl

/-- An account that was read is recalled. -/
theorem Kept.keepAccount (h : Kept g m b v) (found : user ∈ v.users) :
    Kept g { m with account := some user } b v := by
  refine ⟨⟨h.recalls.answered, ?_⟩, h.users, h.letters, h.drawn⟩
  rintro _ ⟨⟩
  exact .inl (h.users ▸ found)

theorem Kept.remember (h : Kept g m b v) (hm : m'.answered = m.answered)
    (ha : m'.account = m.account) : Kept g m' b v := by
  refine ⟨⟨hm.trans h.recalls.answered, ?_⟩, h.users, h.letters, h.drawn⟩
  rw [ha]
  exact h.recalls.account

theorem Kept.view (h : Kept g m b v) {w : Store} (users : w.users = v.users)
    (letters : w.letters = v.letters) (drawn : v.drawn ≤ w.drawn) : Kept g m b w :=
  ⟨h.recalls, users.trans h.users, letters.trans h.letters, h.drawn.trans drawn⟩

/-- A row rewritten where it stands. -/
theorem Kept.wrote (h : Kept g m b v) {id : ℕ} {p : User → Bool} {f : User → User} (hf : Still f)
    (hm : m'.answered = m.answered) (ha : m'.account = m.account)
    (one : ∀ r, p r = true → r.id = id)
    (change : ∀ row, Change b.drawn v.drawn row (f row)) :
    Writes g b m' { v with users := v.users.modify p f hf } := by
  refine .wrote (p := p) (f := f) (h.onto hm fun u hu => .inl (ha ▸ hu))
    ⟨one, fun row' => ?_, h.letters, h.drawn⟩ fun row _ _ => change row
  rw [← h.users]
  exact Table.mem_modify hf

/-- A row rewritten with its keys. -/
theorem Kept.altered (h : Kept g m b v) {id : ℕ} {f : User → User} {users : Table User}
    (alter : v.users.alter (·.id == id) f = some users) (ht : t.users = users)
    (letters : t.letters = v.letters) (drawn : v.drawn ≤ t.drawn) : Rewrites id (·.id == id) f b t := by
  refine ⟨fun r hr => beq_iff_eq.mp hr, fun row' => ?_, letters.trans h.letters,
    h.drawn.trans drawn⟩
  rw [← h.users, ht]
  exact Table.mem_alter alter

/-- Every segment of the program is a write of the accounts, and it ends with none unpublished.
An account it gives is one it read or recalled. -/
def Writing (gives : α → Option User) (p : Db α) : Prop :=
  ∀ g m b v, Kept g m b v → p.Meets (stepping Writes)
    (ending (fun g a b v => Kept g a.2 b v ∧ ∀ u ∈ gives a.1, u ∈ b.users ∨ u ∈ g.account)
      fun _ _ _ _ => True) g m b v

/-- A program that gives no account. -/
abbrev Writing₀ (p : Db α) : Prop := Writing (fun _ => none) p

end FastKit.Accounts
