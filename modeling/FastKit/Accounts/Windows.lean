import FastKit.Accounts.Guesses

/-! # Guessing a password locks the account

A wrong guess is counted in one commit and answered in the next by a window the session works
out from the count it reread. As long as a window is only written over what was reread, a
sign-in only lands on the window it loaded, and nobody goes on with an account while a guess at it
is between its two commits, a window is never brought back and never missed.
-/

namespace FastKit.Accounts
open Transaction Transaction.Program

variable {c : Setup} {m m' : Memory} {s t : Store} {row row' : User} {trace : List (Turn Store)}

theorem waiting_mono {n k : ℕ} (h : n ≤ k) : c.settings.waiting n ≤ c.settings.waiting k := by
  unfold Settings.waiting
  have hpow : 2 ^ (n - c.settings.signInAttempts) ≤ 2 ^ (k - c.settings.signInAttempts) :=
    Nat.pow_le_pow_right (by omega) (by omega)
  exact min_le_min (Nat.mul_le_mul_left _ hpow) le_rfl

/-- What one step of a sign-in does to a row. -/
inductive Tried (moment : ℕ) (m m' : Memory) (row : User) : User → Prop where
  | still : Tried moment m m' row row
  | counted {copy : User} (loaded : m.account = some copy) (same : row.id = copy.id)
      (free : m.guess = none)
      (after : m'.guess = some ⟨row.id, moment, row.failedSignIns + 1, none⟩) :
      Tried moment m m' row (guessed row)
  | windowed {copy : User} {guess : Guess} {window : ℕ} (loaded : m.account = some copy)
      (held : m.guess = some guess) (computed : guess.window = some window)
      (same : row.id = copy.id) : Tried moment m m' row (blockedUntil window row)
  | signed {copy : User} (loaded : m.account = some copy) (unheld : m.guess = none)
      (proved : m.proved = true) (agrees : stillSays copy row = true)
      (free : blocked copy moment = false) :
      Tried moment m m' row (signedInto row)

theorem Tried.id (h : Tried s.clock m m' row row') : row'.id = row.id := by
  cases h <;> rfl

/-- Every row of a step is the one of before, tried. -/
theorem Guesses.tried (h : Guesses c m s m' t) (hrow : row ∈ s.users) :
    ∃ row' ∈ t.users, Tried s.clock m m' row row' := by
  cases h with
  | rest | loaded | reread | ticked => exact ⟨row, hrow, .still⟩
  | @counted _ user _ found same =>
    refine ⟨_, Table.mem_modify_of_mem still_guessed hrow, ?_⟩
    split_ifs with hid
    · obtain rfl := Table.eq_of_id hrow found ((beq_iff_eq.mp hid).trans same.symm)
      exact .counted rfl same rfl (by rw [same])
    · exact .still
  | windowed held =>
    refine ⟨_, Table.mem_modify_of_mem (still_blockedUntil _) hrow, ?_⟩
    split_ifs with hid
    · exact .windowed rfl rfl held (beq_iff_eq.mp hid)
    · exact .still
  | claimed free =>
    refine ⟨_, Table.mem_modify_of_mem still_signedInto hrow, ?_⟩
    split_ifs with hagrees
    · exact .signed rfl rfl rfl hagrees free
    · exact .still

/-- A step adds no account. -/
theorem Guesses.ids (h : Guesses c m s m' t) (hrow : row' ∈ t.users) :
    ∃ row ∈ s.users, row.id = row'.id := by
  have modified : ∀ {p : User → Bool} {f : User → User} (hf : Still f),
      row' ∈ s.users.modify p f hf → ∃ row ∈ s.users, row.id = row'.id := by
    intro p f hf hmem
    obtain ⟨a, ha, rfl⟩ := (Table.mem_modify hf).mp hmem
    exact ⟨a, ha, ((Table.still_ite hf p) a).1.symm⟩
  cases h with
  | rest | loaded | reread | ticked => exact ⟨row', hrow, rfl⟩
  | counted => exact modified still_guessed hrow
  | windowed => exact modified (still_blockedUntil _) hrow
  | claimed => exact modified still_signedInto hrow

theorem Guesses.clock (h : Guesses c m s m' t) : s.clock ≤ t.clock := by
  cases h with
  | ticked duration => exact Nat.le_add_right _ _
  | _ => exact le_rfl

/-- Every row of a step comes from the one of before. -/
theorem Guesses.cases (h : Guesses c m s m' t) (hrow : row' ∈ t.users) :
    ∃ row ∈ s.users, Tried s.clock m m' row row' := by
  obtain ⟨row, hmem, hid⟩ := h.ids hrow
  obtain ⟨row₁, hrow₁, htried⟩ := h.tried hmem
  obtain rfl := Table.eq_of_id hrow₁ hrow (htried.id.trans hid)
  exact ⟨row, hmem, htried⟩

/-- What holds of the rows: a window is there only from the number of attempts on, and is no
longer than the count of the row makes it. -/
def Sound (c : Setup) (s : Store) : Prop :=
  ∀ row ∈ s.users, ∀ until' ∈ row.signInBlockedUntil,
    c.settings.signInAttempts ≤ row.failedSignIns ∧
      until' ≤ s.clock + c.settings.waiting row.failedSignIns

/-- What a session has in hand: the window it worked out is the one of the count it reread. -/
structure Tracked (c : Setup) (s : Store) (m : Memory) : Prop where
  account : ∀ guess ∈ m.guess, ∃ copy ∈ m.account, guess.account = copy.id
  stamped : ∀ guess ∈ m.guess, guess.moment ≤ s.clock
  window : ∀ guess ∈ m.guess, ∀ window ∈ guess.window, ∀ copy ∈ m.account,
    c.settings.signInAttempts ≤ copy.failedSignIns ∧
    guess.moment + c.settings.waiting copy.failedSignIns ≤ window ∧
    window ≤ s.clock + c.settings.waiting copy.failedSignIns ∧
    ∀ until' ∈ copy.signInBlockedUntil, until' ≤ window

/-- What a session writes back is over what it reread: a window only where the count and the
window of the account are still those, and a sign-in only where the window is the one that was
loaded. -/
def Fresh (m : Memory) (s : Store) : Prop :=
  ∀ copy ∈ m.account, ∀ row ∈ s.users, row.id = copy.id →
    (m.proved = true → stillSays copy row = true → blocked copy s.clock = false →
      row.signInBlockedUntil = copy.signInBlockedUntil) ∧
    ∀ guess ∈ m.guess, guess.window ≠ none →
      row.failedSignIns = copy.failedSignIns ∧ row.signInBlockedUntil = copy.signInBlockedUntil

/-- The wrong guess a session counted and did not answer yet. -/
def guessOf (q : Sessions) (i : ℕ) : Option Guess := (q.memory i).bind Memory.guess

/-- A session with an account in hand is alone with it: no other one is between the two commits of
a guess at it that reached the number of attempts. -/
def Alone (c : Setup) (m : Memory) (i : ℕ) (q : Sessions) : Prop :=
  ∀ copy ∈ m.account, ∀ j < q.sessions.length, j ≠ i → ∀ guess ∈ guessOf q j,
    guess.account = copy.id → guess.count < c.settings.signInAttempts

/-- Every session goes on only over what it read, and alone with the account. -/
def Current (c : Setup) (q : Sessions) (i : ℕ) (_ : Sessions) : Prop :=
  ∀ m ∈ q.memory i, Fresh m q.store ∧ Alone c m i q

instance (m : Memory) (s : Store) : Decidable (Fresh m s) := by
  unfold Fresh
  infer_instance

instance (c : Setup) (m : Memory) (i : ℕ) (q : Sessions) : Decidable (Alone c m i q) := by
  unfold Alone
  infer_instance

instance (c : Setup) (q : Sessions) (i : ℕ) (r : Sessions) : Decidable (Current c q i r) := by
  unfold Current
  infer_instance

/-- What a window is written over, where it is written over what was reread. -/
theorem Tracked.over {copy : User} {guess : Guess} {window : ℕ} (h : Tracked c s m)
    (ok : Fresh m s) (loaded : m.account = some copy) (held : m.guess = some guess)
    (computed : guess.window = some window) (hrow : row ∈ s.users) (same : row.id = copy.id) :
    c.settings.signInAttempts ≤ row.failedSignIns ∧
    guess.moment + c.settings.waiting row.failedSignIns ≤ window ∧
    window ≤ s.clock + c.settings.waiting row.failedSignIns ∧
    ∀ until' ∈ row.signInBlockedUntil, until' ≤ window := by
  obtain ⟨hcount, hblocked⟩ := (ok copy loaded row hrow same).2 guess held (by simp [computed])
  rw [hcount, hblocked]
  exact h.window guess held window computed copy loaded

theorem Sound.step (hs : Sound c s) (h : Guesses c m s m' t) (ok : Fresh m s) (hm : Tracked c s m) :
    Sound c t := by
  intro row' hrow' until' hu
  have hclock := h.clock
  obtain ⟨row, hrow, htried⟩ := h.cases hrow'
  cases htried with
  | still =>
    obtain ⟨hn, hle⟩ := hs row' hrow until' hu
    exact ⟨hn, by omega⟩
  | counted =>
    obtain ⟨hn, hle⟩ := hs row hrow until' hu
    have := waiting_mono (c := c) (Nat.le_add_right row.failedSignIns 1)
    exact ⟨Nat.le_succ_of_le hn, by simp only [guessed]; omega⟩
  | windowed loaded held computed same =>
    obtain ⟨hn, -, hle, -⟩ := hm.over ok loaded held computed hrow same
    obtain rfl := Option.some.inj hu
    exact ⟨hn, by simp only [blockedUntil]; omega⟩
  | signed => cases hu

/-- What a session has in hand stays true as time passes. -/
theorem Tracked.later (h : Tracked c s m) (hclock : s.clock ≤ t.clock) : Tracked c t m := by
  refine ⟨h.account, fun guess hg => (h.stamped guess hg).trans hclock, ?_⟩
  intro guess hg window hw copy hc
  obtain ⟨hn, hlow, hhigh, hu⟩ := h.window guess hg window hw copy hc
  exact ⟨hn, hlow, by omega, hu⟩

theorem Tracked.own (h : Tracked c s m) (hs : Sound c s) (step : Guesses c m s m' t) :
    Tracked c t m' := by
  cases step with
  | rest => exact h
  | ticked duration => exact h.later (Nat.le_add_right _ _)
  | loaded | windowed | claimed =>
    exact ⟨by simp, by simp, by simp⟩
  | counted found same =>
    refine ⟨?_, ?_, ?_⟩
    · rintro _ ⟨⟩
      exact ⟨_, rfl, rfl⟩
    · rintro _ ⟨⟩
      exact le_rfl
    · rintro _ ⟨⟩ _ hw
      cases hw
  | @reread _ user row guess found same reached =>
    refine ⟨?_, ?_, ?_⟩
    · rintro _ ⟨⟩
      obtain ⟨copy, hcopy, hid⟩ := h.account guess rfl
      obtain rfl := Option.some.inj hcopy
      exact ⟨row, rfl, hid.trans same.symm⟩
    · rintro _ ⟨⟩
      exact h.stamped guess rfl
    · rintro _ ⟨⟩ _ ⟨⟩ _ ⟨⟩
      have hstamp := h.stamped guess rfl
      exact ⟨reached, Nat.add_le_add_right hstamp _, le_rfl, fun until' hu => (hs row found until' hu).2⟩

/-- How many wrong guesses an account counts, none where there is no such account. -/
def failedOf (id : ℕ) (s : Store) : ℕ := ((s.users.get id).map (·.failedSignIns)).getD 0

/-- When an account was guessed at since somebody last signed in to it, the last time first. -/
def guessMoments (id : ℕ) (trace : List (Turn Store)) : List ℕ :=
  trace.foldl (fun moments turn =>
    if failedOf id turn.after = failedOf id turn.before + 1 then turn.before.clock :: moments
    else if failedOf id turn.after = 0 then [] else moments) []

theorem guessMoments_append (id : ℕ) (turn : Turn Store) : guessMoments id (trace ++ [turn]) =
    if failedOf id turn.after = failedOf id turn.before + 1 then
      turn.before.clock :: guessMoments id trace
    else if failedOf id turn.after = 0 then [] else guessMoments id trace := by
  simp only [guessMoments, List.foldl_append, List.foldl_cons, List.foldl_nil]

theorem failedOf_mem (hrow : row ∈ s.users) : failedOf row.id s = row.failedSignIns := by
  rw [failedOf, show s.users.get row.id = some row from Table.get_of_mem hrow]
  rfl

theorem guessOf_of_memory {q : Sessions} {i : ℕ} (h : q.memory i = some m) :
    guessOf q i = m.guess := by
  rw [guessOf, h, Option.bind_some]

/-- The last guess at an account is on its way to its second write. -/
def Unanswered (q : Sessions) (moment : ℕ) (row : User) : Prop :=
  ∃ i, ∃ guess ∈ guessOf q i, guess.account = row.id ∧ guess.moment = moment ∧
    guess.count = row.failedSignIns

/-- From the number of attempts on, an account answers nothing for as long as its count makes
it, from the last guess on, unless that guess is still on its way. -/
def Locked (c : Setup) (trace : List (Turn Store)) (q : Sessions) : Prop :=
  ∀ row ∈ q.store.users, c.settings.signInAttempts ≤ row.failedSignIns →
    ∀ moment ∈ (guessMoments row.id trace).head?, Unanswered q moment row ∨
      ∃ until' ∈ row.signInBlockedUntil, moment + c.settings.waiting row.failedSignIns ≤ until'

/-- Whoever goes on with an account and has no guess at it in hand finds the last one answered. -/
theorem Locked.answered {q r : Sessions} {i : ℕ} (h : Locked c trace q) (ok : Current c q i r)
    {copy : User} (hm : q.memory i = some m) (loaded : m.account = some copy) (free : m.guess = none)
    (hrow : row ∈ q.store.users) (same : row.id = copy.id)
    (hreached : c.settings.signInAttempts ≤ row.failedSignIns) {moment : ℕ}
    (hmoment : moment ∈ (guessMoments row.id trace).head?) :
    ∃ until' ∈ row.signInBlockedUntil, moment + c.settings.waiting row.failedSignIns ≤ until' := by
  refine (h row hrow hreached moment hmoment).resolve_left ?_
  rintro ⟨j, guess, hg, hacc, -, hcount⟩
  have hji : j ≠ i := by
    rintro rfl
    rw [guessOf_of_memory hm, free] at hg
    cases hg
  have hlen : j < q.sessions.length := by
    obtain ⟨k, hk, -⟩ := Option.bind_eq_some_iff.mp hg
    obtain ⟨o, ho, -⟩ := Option.bind_eq_some_iff.mp hk
    exact (List.getElem?_eq_some_iff.mp ho).1
  have := (ok m hm).2 copy loaded j hlen hji guess hg (hacc.trans same)
  omega

structure Orderly (c : Setup) (q : Sessions) : Prop where
  sound : Sound c q.store
  tracked : ∀ i m, q.memory i = some m → Tracked c q.store m

/-- How the sessions of sign-ins end. -/
abbrev EndsAll (c : Setup) (calls : List Call) :
    ℕ → Memory → Except Fault (Option User × Memory) → Store → Store → Prop :=
  fun i g _ b _ => ∀ call ∈ calls[i]?, Ends c g b

theorem Orderly.turn {q r : Sessions} {i : ℕ} (h : Orderly c q) (ok : Current c q i r)
    {post : ℕ → Memory → Except Fault (Option User × Memory) → Store → Store → Prop}
    (turn : Pool.Stepped (Guesses c) post q i r) : Orderly c r := by
  obtain ⟨m, hm, hstep⟩ := turn.step
  rcases hstep with ⟨view, result, hend, hsame, -⟩ | ⟨m', hm', step⟩
  · exact ⟨hsame ▸ h.sound, fun j k hj => hsame ▸ h.tracked j k (turn.memory_ended hend hj)⟩
  · refine ⟨h.sound.step step (ok m hm).1 (h.tracked i m hm), fun j k hj => ?_⟩
    by_cases hji : j = i
    · rw [hji, hm'] at hj
      obtain rfl := Option.some.inj hj
      exact (h.tracked i m hm).own h.sound step
    · exact (h.tracked j k ((turn.memory_others hji).symm.trans hj)).later step.clock

/-- A guess in hand stays in hand until its window is written on the account. -/
theorem Guesses.answers (h : Guesses c m s m' t) (hm : Tracked c s m) {guess : Guess}
    (hg : guess ∈ m.guess) (hrow : row ∈ s.users) (hid : guess.account = row.id)
    (hrow' : row' ∈ t.users) (same : row'.id = row.id) :
    (∃ guess' ∈ m'.guess, guess'.account = guess.account ∧ guess'.moment = guess.moment ∧
      guess'.count = guess.count) ∨ ∃ window ∈ guess.window, row' = blockedUntil window row := by
  cases h with
  | rest | ticked => exact .inl ⟨guess, hg, rfl, rfl, rfl⟩
  | loaded | counted | claimed => cases hg
  | reread =>
    obtain rfl := Option.some.inj hg
    exact .inl ⟨_, rfl, rfl, rfl, rfl⟩
  | @windowed _ copy guess window held =>
    obtain rfl := Option.some.inj hg
    obtain ⟨copy', hcopy, hacc⟩ := hm.account _ rfl
    obtain rfl := Option.some.inj hcopy
    have hmem := Table.mem_modify_of_mem (p := (·.id == copy.id)) (still_blockedUntil window) hrow
    rw [if_pos (beq_iff_eq.mpr (hid.symm.trans hacc))] at hmem
    exact .inr ⟨window, held, Table.eq_of_id hrow' hmem same⟩

theorem Locked.turn {q r : Sessions} {i : ℕ} (h : Locked c trace q) (ho : Orderly c q)
    (ok : Current c q i r) {calls : List Call}
    (turn : Pool.Stepped (Guesses c) (EndsAll c calls) q i r) (hi : ∃ call, calls[i]? = some call) :
    Locked c (trace ++ [⟨i, q.store, r.store⟩]) r := by
  obtain ⟨m, hm, hstep⟩ := turn.step
  intro row' hrow' hreached moment hmoment
  rw [guessMoments_append] at hmoment
  rcases hstep with ⟨view, result, hend, hsame, hpost⟩ | ⟨m', hm', step⟩
  · -- a session that ends counted nothing that reached the number of attempts
    rw [hsame] at hrow' hmoment
    dsimp only at hmoment
    rw [if_neg (Nat.ne_of_lt (Nat.lt_succ_self _))] at hmoment
    split_ifs at hmoment
    · cases hmoment
    rcases h row' hrow' hreached moment hmoment with ⟨j, guess, hg, hacc, hmo, hcount⟩ | hdone
    · refine .inl ⟨j, guess, ?_, hacc, hmo, hcount⟩
      by_cases hji : j = i
      · subst hji
        obtain ⟨call, hcall⟩ := hi
        rw [guessOf_of_memory hm] at hg
        have := hpost call hcall guess hg row' hrow' hacc.symm
        omega
      · rwa [guessOf, turn.memory_others hji]
    · exact .inr hdone
  · have hmine := ho.tracked i m hm
    obtain ⟨row, hrow, htried⟩ := step.cases hrow'
    have hid : row'.id = row.id := htried.id
    have hbefore : failedOf row'.id q.store = row.failedSignIns := by
      rw [hid]
      exact failedOf_mem hrow
    have hafter : failedOf row'.id r.store = row'.failedSignIns := failedOf_mem hrow'
    dsimp only at hmoment
    rw [hbefore, hafter] at hmoment
    -- what a guess that is on its way becomes where the count stays
    have unanswered : row'.failedSignIns = row.failedSignIns → Unanswered q moment row →
        Unanswered r moment row' ∨ ∃ until' ∈ row'.signInBlockedUntil,
          moment + c.settings.waiting row'.failedSignIns ≤ until' := by
      rintro hcount ⟨j, guess, hg, hacc, hmo, hn⟩
      by_cases hji : j = i
      · subst hji
        rw [guessOf_of_memory hm] at hg
        rcases step.answers hmine hg hrow hacc hrow' hid with
          ⟨guess', hg', ha', hmo', hn'⟩ | ⟨window, hw, rfl⟩
        · exact .inl ⟨j, guess', by rw [guessOf_of_memory hm']; exact hg',
            (ha'.trans hacc).trans hid.symm, hmo'.trans hmo, (hn'.trans hn).trans hcount.symm⟩
        · obtain ⟨copy, hcopy, hsame⟩ := hmine.account guess hg
          have hlow := (hmine.over (ok m hm).1 hcopy hg hw hrow (hacc.symm.trans hsame)).2.1
          exact .inr ⟨window, rfl, hmo ▸ hlow⟩
      · exact .inl ⟨j, guess, by rwa [guessOf, turn.memory_others hji], hacc.trans hid.symm, hmo,
          hn.trans hcount.symm⟩
    cases htried with
    | still =>
      rw [if_neg (Nat.ne_of_lt (Nat.lt_succ_self _))] at hmoment
      split_ifs at hmoment
      · cases hmoment
      rcases h row' hrow hreached moment hmoment with hway | hdone
      · exact unanswered rfl hway
      · exact .inr hdone
    | counted loaded same free after =>
      rw [if_pos (show (guessed row).failedSignIns = row.failedSignIns + 1 from rfl)] at hmoment
      obtain rfl := Option.some.inj hmoment
      exact .inl ⟨i, _, by rw [guessOf_of_memory hm', after]; rfl, rfl, rfl, rfl⟩
    | @windowed copy guess window loaded held computed same =>
      rw [if_neg (show ¬(blockedUntil window row).failedSignIns = row.failedSignIns + 1 from
        Nat.ne_of_lt (Nat.lt_succ_self _))] at hmoment
      split_ifs at hmoment
      · cases hmoment
      rcases h row hrow hreached moment hmoment with hway | ⟨until', hu, hle⟩
      · exact unanswered rfl hway
      · have hlast := (hmine.over (ok m hm).1 loaded held computed hrow same).2.2.2 until' hu
        exact .inr ⟨window, rfl, hle.trans hlast⟩
    | signed loaded unheld proved agrees free =>
      rw [if_neg (show ¬(signedInto row).failedSignIns = row.failedSignIns + 1 from
        (Nat.succ_ne_zero _).symm), if_pos (show (signedInto row).failedSignIns = 0 from rfl)]
        at hmoment
      cases hmoment

theorem stepping_guesses {calls : List Call} (hcalls : ∀ call ∈ calls, call.guesses = true)
    (s : Store) : Pool.Stepping (fun _ => Guesses c) (EndsAll c calls) (sessions c calls s) :=
  Pool.stepping_sessions (Call.serve c) (fun _ => Memory.empty) s calls
    fun call h => serve_guesses call (hcalls call h)

/-- A turn is taken by a session of one of the calls. -/
theorem called {ok : Sessions → ℕ → Sessions → Prop} {calls : List Call} {q r : Sessions} {i : ℕ}
    (run : Pool.Run ok (sessions c calls s) trace q) (taken : q.turn i = some r) :
    ∃ call, calls[i]? = some call := by
  have hlen : q.sessions.length = calls.length := by
    clear taken
    induction run with
    | start => simp [sessions]
    | turn i _ taken _ ih =>
      obtain ⟨_, _, _, _, _, _, rfl⟩ := Pool.turn_eq_some taken
      simpa using ih
  obtain ⟨_, _, _, _, hget, _, _⟩ := Pool.turn_eq_some taken
  have hlt : i < q.sessions.length := (List.getElem?_eq_some_iff.mp hget).1
  exact ⟨_, List.getElem?_eq_getElem (hlen ▸ hlt)⟩

theorem run_orderly {calls : List Call} {q : Sessions}
    (hcalls : ∀ call ∈ calls, call.guesses = true) (hs : Sound c s)
    (run : Pool.Run (Current c) (sessions c calls s) trace q) : Orderly c q ∧ Locked c trace q := by
  induction run with
  | start =>
    refine ⟨⟨hs, fun i m hm => ?_⟩, fun row _ _ moment hmoment => by cases hmoment⟩
    obtain ⟨_, _, rfl⟩ := Pool.memory_sessions hm
    exact ⟨by simp [Memory.empty], by simp [Memory.empty], by simp [Memory.empty]⟩
  | turn i past taken ok ih =>
    have hstep := past.stepped (stepping_guesses hcalls s) taken
    exact ⟨ih.1.turn ok hstep, ih.2.turn ih.1 ok hstep (called past taken)⟩

/-- A step leaves the count of an account, raises it by one, or takes it back. -/
theorem Guesses.failedOf (h : Guesses c m s m' t) (id : ℕ) : failedOf id t = failedOf id s ∨
    failedOf id t = failedOf id s + 1 ∨ failedOf id t = 0 := by
  cases ht : t.users.get id with
  | none => exact .inr (.inr (by simp [Accounts.failedOf, ht]))
  | some row' =>
    obtain ⟨row, hrow, htried⟩ := h.cases (Table.mem_of_get ht)
    obtain rfl : row'.id = id := Table.id_of_get ht
    rw [failedOf_mem (Table.mem_of_get ht), htried.id, failedOf_mem hrow]
    cases htried with
    | still | windowed => exact .inl rfl
    | counted => exact .inr (.inl rfl)
    | signed => exact .inr (.inr rfl)

end FastKit.Accounts
