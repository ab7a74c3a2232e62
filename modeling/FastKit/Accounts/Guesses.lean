import FastKit.Services.Accounts
import FastKit.Transaction.Steps

/-! # What a sign-in with a password does

Every segment of a sign-in is one of a few steps: it loads the account, counts a wrong guess,
rereads the count, writes the window that follows from it, or signs in.
-/

namespace FastKit.Accounts
open Transaction Transaction.Program

variable {c : Setup} {m m' : Memory} {s t : Store} {row row' user : User}

/-- What a segment of a sign-in does, by what the session had in hand. -/
inductive Guesses (c : Setup) : Memory → Store → Memory → Store → Prop where
  | rest (m : Memory) (s : Store) : Guesses c m s m s
  | loaded {s : Store} {user : Option User} (proved : Bool) (found : ∀ u ∈ user, u ∈ s.users) :
      Guesses c Memory.empty s ⟨user, proved, none, none, none, none⟩ s
  | counted {s : Store} {user row : User} (found : row ∈ s.users) (same : row.id = user.id) :
      Guesses c ⟨some user, false, none, none, none, none⟩ s
        ⟨some user, false, some ⟨user.id, s.clock, row.failedSignIns + 1, none⟩, none, none, none⟩
        { s with users := s.users.modify (·.id == user.id) guessed still_guessed }
  | reread {s : Store} {user row : User} {guess : Guess} (found : row ∈ s.users)
      (same : row.id = user.id) (reached : c.settings.signInAttempts ≤ row.failedSignIns) :
      Guesses c ⟨some user, false, some guess, none, none, none⟩ s ⟨some row, false,
        some { guess with window := some (s.clock + c.settings.waiting row.failedSignIns) }, none,
        none, none⟩ s
  | windowed {s : Store} {copy : User} {guess : Guess} {window : ℕ}
      (held : guess.window = some window) :
      Guesses c ⟨some copy, false, some guess, none, none, none⟩ s ⟨some copy, false, none, none, none, none⟩
        { s with users := s.users.modify (·.id == copy.id) (blockedUntil window)
                            (still_blockedUntil _) }
  | claimed {s : Store} {user : User} (free : blocked user s.clock = false) :
      Guesses c ⟨some user, true, none, none, none, none⟩ s ⟨some user, false, none, none, none, none⟩
        { s with users := s.users.modify (stillSays user) signedInto still_signedInto }
  | ticked {m : Memory} {s : Store} (duration : ℕ) :
      Guesses c m s m { s with clock := s.clock + duration }

/-- A sign-in that counted a wrong guess ends without a window only below the number of
attempts. -/
def Ends (c : Setup) (g : Memory) (b : Store) : Prop :=
  ∀ guess ∈ g.guess, ∀ row ∈ b.users, row.id = guess.account →
    row.failedSignIns < c.settings.signInAttempts

theorem ends_none {account : Option User} {proved : Bool} {answered : Option Answered}
    {spent : Option Spent} {asked : Option Asked} {b : Store} :
    Ends c ⟨account, proved, none, answered, spent, asked⟩ b := fun _ h => by cases h

/-- No row has the id of a row that is gone. -/
theorem ne_of_get_none {id : ℕ} (h : s.users.get id = none) : ∀ row ∈ s.users, row.id ≠ id := by
  intro row hrow hid
  have hget : s.users.get row.id = some row := Table.get_of_mem hrow
  rw [hid, h] at hget
  cases hget

theorem countFailure_meets (user : User) (s : Store) : (countFailure c user).Meets
    (stepping (Guesses c)) (ending (fun g _ b _ => Ends c g b) (fun g _ b _ => Ends c g b))
    ⟨some user, false, none, none, none, none⟩ ⟨some user, false, none, none, none, none⟩ s s := by
  simp only [countFailure, now, meets_bind, meets_query, ending_ok]
  cases h : s.users.get user.id with
  | none =>
    simp only [meets_bind, meets_raise, ending_ok, ending_error, steps_publish]
    exact ⟨.rest _ s, fun _ => ends_none⟩
  | some row =>
    simp only [writeUsers, refresh, keepAccount, meets_bind, meets_execute, meets_remember, meets_query,
      ending_ok, steps_publish]
    refine ⟨.counted (Table.mem_of_get h) (Table.id_of_get h), fun t => ?_⟩
    cases ht : t.users.get user.id with
    | none =>
      simp only [meets_require_none, ending_error]
      rintro _ ⟨⟩ row' hrow' hid
      exact absurd hid (ne_of_get_none ht row' hrow')
    | some row' =>
      have hid : row'.id = user.id := Table.id_of_get ht
      simp only [meets_require_some, meets_bind, meets_pure, meets_remember, ending_ok]
      refine meets_ite.mpr ⟨fun hlow => ?_, fun hhigh => ?_⟩
      · rintro _ ⟨⟩ row'' hrow'' hid''
        rwa [show row'' = row' from
          Table.eq_of_id hrow'' (Table.mem_of_get ht) (hid''.trans hid.symm)]
      · simp only [pass, meets_bind, meets_query, meets_remember, ending_ok, steps_yield, id_eq,
          Option.map_some]
        refine ⟨.reread (Table.mem_of_get ht) hid (Nat.le_of_not_lt hhigh), fun u => ?_⟩
        cases hu : u.users.get user.id with
        | none =>
          simp only [meets_require_none, ending_error]
          rintro _ ⟨⟩ row'' hrow'' hid''
          exact absurd hid'' (ne_of_get_none hu row'' hrow'')
        | some row'' =>
          simp only [meets_require_some, meets_bind, meets_execute, meets_remember, ending_ok,
            steps_publish]
          rw [← hid]
          exact ⟨.windowed rfl, fun _ => ends_none⟩

theorem claimSignIn_meets (user : User) (s : Store) (free : blocked user s.clock = false) :
    (claimSignIn user).Meets (stepping (Guesses c))
    (ending (fun g _ b _ => Ends c g b) (fun g _ b _ => Ends c g b))
    ⟨some user, true, none, none, none, none⟩ ⟨some user, true, none, none, none, none⟩ s s := by
  simp only [claimSignIn, writeUsers, getUser, keepAccount, meets_bind, meets_query, meets_execute,
    meets_remember, ending_ok, steps_publish]
  refine ⟨.claimed free, fun t => ?_⟩
  refine meets_ite.mpr ⟨fun _ => ends_none, fun _ => ?_⟩
  simp only [meets_bind, meets_query, ending_ok]
  cases h : t.users.get user.id with
  | none => exact ends_none
  | some row =>
    simp only [meets_require_some, meets_bind, meets_remember, meets_pure, ending_ok]
    exact meets_ite.mpr ⟨fun _ => ends_none, fun _ => ends_none⟩

theorem settleSignIn_meets (user : Option User) (password : String) (s : Store)
    (found : ∀ u ∈ user, u ∈ s.users) : (settleSignIn c user password).Meets (stepping (Guesses c))
    (ending (fun g _ b _ => Ends c g b) (fun g _ b _ => Ends c g b)) Memory.empty Memory.empty s s := by
  simp only [settleSignIn, pass, meets_bind, meets_remember, ending_ok, steps_yield, id_eq]
  refine ⟨.loaded _ found, fun t => ?_⟩
  cases user with
  | none => exact ends_none
  | some user =>
    dsimp only
    cases hp : settled c (some user) password with
    | false =>
      simp only [if_true]
      exact (countFailure_meets user t).bind (fun _ _ _ _ _ h => h) (fun _ _ _ _ h => h)
    | true =>
      simp only [Bool.true_eq_false, if_false, now, meets_bind, meets_query, ending_ok]
      refine meets_ite.mpr ⟨fun _ => ends_none, fun hfree => ?_⟩
      simp only [ensureUsable, meets_bind]
      cases user.status with
      | blocked | pending => exact ends_none
      | active | erased => exact claimSignIn_meets user t (Bool.eq_false_of_not_eq_true hfree)

/-- The calls that try a password, and time passing. -/
def Call.guesses : Call → Bool
  | .authenticate .. | .authenticateForPanel .. | .tick _ => true
  | _ => false

theorem serve_guesses (call : Call) (h : call.guesses = true) (s : Store) :
    (call.serve c).Meets (stepping (Guesses c)) (fun g _ b _ => Ends c g b)
    Memory.empty Memory.empty s s := by
  have found : ∀ {p : User → Bool}, ∀ u ∈ s.users.find p, u ∈ s.users :=
    fun u h => Table.mem_of_find h
  cases call with
  | authenticate tenantId login password =>
    refine Meets.bind (settleSignIn_meets _ password s found) ?_ ?_
    · exact fun _ _ _ _ _ h => h
    · exact fun _ _ _ _ h => h
  | authenticateForPanel tenantId login password =>
    simp only [Call.serve, authenticateForPanel, meets_bind, meets_query, ending_ok]
    refine (settleSignIn_meets _ password s fun u h => (firstOperator_holds h).1).mono ?_
    rintro g (e | ⟨user, m⟩) b v h
    · exact h
    · exact meets_ite.mpr ⟨fun _ => h, fun _ => h⟩
  | tick by' =>
    simp only [Call.serve, silent, meets_bind, meets_execute, meets_pure, ending_ok, steps_publish]
    exact ⟨.ticked by', fun _ => ends_none⟩
  | _ => cases h

end FastKit.Accounts
