import FastKit.Accounts.Challenges

/-! # An e-mailed code opens one session

A token is of one row, or in the hand of one request that is about to write it. It is spent
where the row still says it may be, which it says no more once it was spent, and a row that is
written again has another token.
-/

namespace FastKit.Accounts
open Transaction Transaction.Program

variable {c : Setup} {call : Call} {m m' : Memory} {s t : Store} {e e' : EmailLoginChallenge}
  {asked asked' : Asked} {q r : Sessions} {i j : ℕ} {calls : List Call} {l k : List (Turn Store)}
  {ok : Sessions → ℕ → Sessions → Prop} {tenantId : Option ℕ} {token moment : ℕ}
  {surface : AuthenticationSurface} {code : String}

theorem live_fields (h : live c tenantId token surface moment e = true) :
    e.token = token ∧ e.tenantId = tenantId ∧ e.surface = surface ∧ e.consumedAt = none ∧
      moment < e.expiresAt ∧ e.attempts < c.settings.email.maxAttempts := by
  simp only [live, Bool.and_eq_true, beq_iff_eq, Option.isNone_iff_eq_none, decide_eq_true_eq] at h
  exact ⟨h.1.1.1.1.1, h.1.1.1.1.2, h.1.1.1.2, h.1.1.2, h.1.2, h.2⟩

theorem right_live (h : right c tenantId token surface code moment e = true) :
    live c tenantId token surface moment e = true := (Bool.and_eq_true _ _ ▸ h).1

theorem wrong_live (h : wrong c tenantId token surface code moment e = true) :
    live c tenantId token surface moment e = true := (Bool.and_eq_true _ _ ▸ h).1

/-- A token is of one row. -/
theorem eq_of_token (he : e ∈ s.challenges) (he' : e' ∈ s.challenges) (h : e.token = e'.token) :
    e = e' := by
  have hkey : ∀ x : EmailLoginChallenge, ChallengeKey.token x.token ∈ Keyed.keys x := fun x =>
    List.mem_cons_of_mem _ (List.mem_singleton_self _)
  exact Table.eq_of_key he he' (hkey e) (h ▸ hkey e')

/-- What a step makes of the row of a code. -/
inductive Coded (c : Setup) (call : Call) (m m' : Memory) (moment : ℕ) (e : EmailLoginChallenge) :
    EmailLoginChallenge → Prop where
  | still : Coded c call m m' moment e e
  | missed {tenantId : Option ℕ} {token : ℕ} {surface : AuthenticationSurface} {code : String}
      (asks : call = .confirmCode tenantId token code surface)
      (misses : wrong c tenantId token surface code moment e = true) :
      Coded c call m m' moment e (missed e)
  | spent {tenantId : Option ℕ} {token : ℕ} {surface : AuthenticationSurface} {code : String}
      {account : Option User} (asks : call = .confirmCode tenantId token code surface)
      (holds : right c tenantId token surface code moment e = true)
      (after : m' = spending account ⟨token, tenantId, surface, e.email, moment⟩) :
      Coded c call m m' moment e (consumed moment e)
  | renewed {asked : Asked} (expiresAt resendAt : ℕ) (before : m = asking asked)
      (held : asked.row = some e.id) : Coded c call m m' moment e
        (redrawn asked.token (c.vault.codeDigest asked.token asked.code) expiresAt resendAt e)

theorem Coded.fields (h : Coded c call m m' moment e e') : e'.id = e.id ∧ e'.scopeKey = e.scopeKey ∧
    e'.scope = e.scope := by
  cases h <;> exact ⟨rfl, rfl, rfl⟩

/-- A row keeps its token or takes the one that was in hand. -/
theorem Coded.drawn (h : Coded c call m m' moment e e') : e'.token = e.token ∨
    ∃ asked, m = asking asked ∧ e'.token = asked.token := by
  cases h with
  | still | missed | spent => exact .inl rfl
  | renewed _ _ before _ => exact .inr ⟨_, before, rfl⟩

/-- Every row stays, as a step makes it. -/
theorem Codes.coded (h : Codes c call m s m' t) (he : e ∈ s.challenges) :
    ∃ e' ∈ t.challenges, Coded c call m m' s.clock e e' := by
  cases h with
  | kept challenges | drew _ _ _ _ _ challenges => exact ⟨e, challenges.symm ▸ he, .still⟩
  | found => exact ⟨e, he, .still⟩
  | renewed held one rows =>
    refine ⟨_, (rows _).mpr ⟨e, he, rfl⟩, ?_⟩
    split_ifs with hp
    · exact .renewed _ _ rfl (held.trans (congrArg some (one e hp).symm))
    · exact .still
  | inserted rows => exact ⟨e, (rows e).mpr (.inl he), .still⟩
  | missed asks =>
    refine ⟨_, Table.mem_modify_of_mem still_missed he, ?_⟩
    split_ifs with hp
    · exact .missed asks hp
    · exact .still
  | spent asks mem holds challenges =>
    refine ⟨_, challenges ▸ Table.mem_modify_of_mem (still_consumed _) he, ?_⟩
    split_ifs with hp
    · have htoken := (live_fields (right_live hp)).1.trans (live_fields (right_live holds)).1.symm
      obtain rfl := eq_of_token he mem htoken
      exact .spent asks hp rfl
    · exact .still

/-- Every row after a step is one of before, as the step makes it, or a code that was in hand. -/
theorem Codes.cases (h : Codes c call m s m' t) (he : e' ∈ t.challenges) :
    (∃ e ∈ s.challenges, Coded c call m m' s.clock e e') ∨
    ∃ asked id expiresAt resendAt, m = asking asked ∧ e' = asked.challenge c id expiresAt resendAt := by
  -- a row of before that has the id of this one is this one, as the step made it
  have hback : (∃ e ∈ s.challenges, e.id = e'.id) → ∃ e ∈ s.challenges,
      Coded c call m m' s.clock e e' := by
    rintro ⟨e, hmem, hid⟩
    obtain ⟨now, hnow, hcoded⟩ := h.coded hmem
    obtain rfl := Table.eq_of_id hnow he (hcoded.fields.1.trans hid)
    exact ⟨e, hmem, hcoded⟩
  have hmodify : ∀ {p f} (hf : Still f), e' ∈ s.challenges.modify p f hf →
      ∃ e ∈ s.challenges, e.id = e'.id := by
    intro p f hf hmem
    obtain ⟨x, hx, rfl⟩ := (Table.mem_modify hf).mp hmem
    refine ⟨x, hx, ?_⟩
    split_ifs
    · exact (hf x).1.symm
    · rfl
  cases h with
  | kept challenges | drew _ _ _ _ _ challenges => exact .inl ⟨e', challenges ▸ he, .still⟩
  | found => exact .inl ⟨e', he, .still⟩
  | renewed held one rows =>
    obtain ⟨e, hmem, heq⟩ := (rows e').mp he
    refine .inl (hback ⟨e, hmem, ?_⟩)
    rw [← heq]
    split_ifs <;> rfl
  | inserted rows =>
    rcases (rows e').mp he with hmem | rfl
    · exact .inl ⟨e', hmem, .still⟩
    · exact .inr ⟨_, _, _, _, rfl, rfl⟩
  | missed => exact .inl (hback (hmodify still_missed he))
  | spent _ _ _ challenges => exact .inl (hback (hmodify (still_consumed _) (challenges ▸ he)))

theorem Codes.drawn (h : Codes c call m s m' t) : s.drawn ≤ t.drawn := by
  cases h with
  | kept _ _ drawn => exact drawn
  | drew _ _ _ low high => omega
  | found | missed => exact le_rfl
  | renewed _ _ _ _ drawn => exact drawn.ge
  | inserted _ _ drawn => exact drawn.ge
  | spent _ _ _ _ _ _ drawn => exact drawn

/-- The codes of a store: their tokens were drawn, each stands under the scope it is for, and no
more misses were counted than may be. -/
structure Scoped (c : Setup) (s : Store) : Prop where
  drawn : ∀ e ∈ s.challenges, e.token < s.drawn
  scope : ∀ e ∈ s.challenges, e.scopeKey = c.vault.scopeDigest e.scope
  within : ∀ e ∈ s.challenges, e.attempts ≤ c.settings.email.maxAttempts

/-- A code in hand: no row has its token yet, and the row it is to replace is of its scope. -/
structure Bound (c : Setup) (s : Store) (asked : Asked) : Prop where
  drawn : asked.token < s.drawn
  unused : ∀ e ∈ s.challenges, e.token ≠ asked.token
  row : ∀ id ∈ asked.row, (∃ e ∈ s.challenges, e.id = id) ∧
    ∀ e ∈ s.challenges, e.id = id → e.scopeKey = c.vault.scopeDigest asked.scope

theorem Scoped.step (h : Scoped c s) (step : Codes c call m s m' t)
    (hb : ∀ asked ∈ m.asked, Bound c s asked) : Scoped c t := by
  refine ⟨fun e' he' => ?_, fun e' he' => ?_, fun e' he' => ?_⟩
  · rcases step.cases he' with ⟨e, he, coded⟩ | ⟨asked, id, expiresAt, resendAt, rfl, rfl⟩
    · rcases coded.drawn with hsame | ⟨asked, rfl, htoken⟩
      · rw [hsame]
        exact (h.drawn e he).trans_le step.drawn
      · rw [htoken]
        exact (hb asked rfl).drawn.trans_le step.drawn
    · exact (hb asked rfl).drawn.trans_le step.drawn
  · rcases step.cases he' with ⟨e, he, coded⟩ | ⟨asked, id, expiresAt, resendAt, rfl, rfl⟩
    · rw [coded.fields.2.1, coded.fields.2.2]
      exact h.scope e he
    · rfl
  · rcases step.cases he' with ⟨e, he, coded⟩ | ⟨asked, id, expiresAt, resendAt, rfl, rfl⟩
    · cases coded with
      | still => exact h.within _ he
      | spent => exact h.within e he
      | missed asks misses => exact (live_fields (wrong_live misses)).2.2.2.2.2
      | renewed => exact Nat.zero_le _
    · exact Nat.zero_le _

/-- A code in hand stays what it is while another session steps. -/
theorem Bound.other (h : Bound c s asked) (step : Codes c call m s m' t)
    (apart : ∀ asked' ∈ m.asked, asked'.token ≠ asked.token) : Bound c t asked := by
  have hid : ∀ e' ∈ t.challenges, ∀ e ∈ s.challenges, e'.id = e.id →
      e'.scopeKey = e.scopeKey := by
    intro e' he' e he hsame
    obtain ⟨now, hnow, coded⟩ := step.coded he
    obtain rfl := Table.eq_of_id hnow he' (coded.fields.1.trans hsame.symm)
    exact coded.fields.2.1
  refine ⟨h.drawn.trans_le step.drawn, fun e' he' => ?_, fun id hrow => ?_⟩
  · rcases step.cases he' with ⟨e, he, coded⟩ | ⟨asked', id, expiresAt, resendAt, rfl, rfl⟩
    · rcases coded.drawn with hsame | ⟨asked', rfl, htoken⟩
      · rw [hsame]
        exact h.unused e he
      · rw [htoken]
        exact apart asked' rfl
    · exact apart asked' rfl
  · obtain ⟨⟨e, he, rfl⟩, hscope⟩ := h.row id hrow
    obtain ⟨now, hnow, coded⟩ := step.coded he
    refine ⟨⟨now, hnow, coded.fields.1⟩, fun e' he' hsame => ?_⟩
    rw [hid e' he' e he hsame]
    exact hscope e he rfl

/-- What a session has in hand after its own step. -/
theorem Bound.own (hs : Scoped c s) (step : Codes c call m s m' t)
    (hb : ∀ asked ∈ m.asked, Bound c s asked ∧ ∃ email, call = .requestCode asked.tenantId email
      asked.surface asked.code ∧ asked.email = c.alphabet.lower email) :
    ∀ asked ∈ m'.asked, Bound c t asked ∧ ∃ email, call = .requestCode asked.tenantId email
      asked.surface asked.code ∧ asked.email = c.alphabet.lower email := by
  cases step with
  | kept challenges _ drawn =>
    intro asked ha
    obtain ⟨hbound, hcall⟩ := hb asked ha
    refine ⟨⟨hbound.drawn.trans_le drawn, ?_, ?_⟩, hcall⟩
    · rw [challenges]
      exact hbound.unused
    · rw [challenges]
      exact hbound.row
  | @drew _ _ asked email low high asks address free challenges =>
    rintro _ ⟨⟩
    refine ⟨⟨high, fun e he => ?_, by simp [free]⟩, email, asks, address⟩
    exact ((hs.drawn e (challenges ▸ he)).trans_le low).ne
  | @found _ asked e mem scope =>
    rintro _ ⟨⟩
    obtain ⟨hbound, hcall⟩ := hb asked rfl
    refine ⟨⟨hbound.drawn, hbound.unused, ?_⟩, hcall⟩
    rintro _ ⟨⟩
    refine ⟨⟨e, mem, rfl⟩, fun e' he' hid => ?_⟩
    rw [Table.eq_of_id he' mem hid]
    exact scope
  | renewed | inserted | missed | spent =>
    rintro _ ⟨⟩

/-- The code a call spent, whether it ended or not. -/
def spentBy (q : Sessions) (i : ℕ) : Option Spent :=
  match q.sessions[i]? with
  | some (.pause m _ _ _) => m.spent
  | some (.done _ (.ok (_, m))) => m.spent
  | _ => none

theorem spentBy_of_memory (h : q.memory i = some m) : spentBy q i = m.spent := by
  obtain ⟨o, ho, hm⟩ := Option.bind_eq_some_iff.mp h
  unfold spentBy
  rw [ho]
  cases o with
  | done view result => cases hm
  | pause memory view ready next =>
    obtain rfl := Option.some.inj hm
    rfl

/-- What the code in the hand of a session was drawn for. -/
def Requested (c : Setup) (calls : List Call) (i : ℕ) (asked : Asked) : Prop :=
  ∃ email, calls[i]? = some (.requestCode asked.tenantId email asked.surface asked.code) ∧
    asked.email = c.alphabet.lower email

structure Guarded (c : Setup) (calls : List Call) (q : Sessions) : Prop where
  store : Scoped c q.store
  inHand : ∀ i m, q.memory i = some m → ∀ asked ∈ m.asked, Bound c q.store asked ∧
    Requested c calls i asked
  apart : ∀ i j m k, i ≠ j → q.memory i = some m → q.memory j = some k → ∀ asked ∈ m.asked,
    ∀ asked' ∈ k.asked, asked.token ≠ asked'.token
  used : ∀ i spent, spentBy q i = some spent → spent.token < q.store.drawn ∧
    ∀ e ∈ q.store.challenges, e.token = spent.token → e.consumedAt.isSome
  free : ∀ i spent, spentBy q i = some spent → ∀ j m, q.memory j = some m → ∀ asked ∈ m.asked,
    asked.token ≠ spent.token
  once : ∀ i j spent spent', spentBy q i = some spent → spentBy q j = some spent' →
    spent.token = spent'.token → i = j

/-- What is spent after a step was spent before it, or is a row that allowed it. -/
theorem Codes.spends (h : Codes c call m s m' t) {spent : Spent} (hs : m'.spent = some spent) :
    m.spent = some spent ∨ (∃ code, call = .confirmCode spent.tenantId spent.token code spent.surface ∧
      ∃ e ∈ s.challenges, consumed s.clock e ∈ t.challenges ∧
        right c spent.tenantId spent.token spent.surface code s.clock e = true ∧
        e.email = spent.email ∧ spent.moment = s.clock) ∧
      ∀ u ∈ m'.account, u ∈ t.users ∧ u.email = some spent.email ∧
        inScope spent.tenantId spent.surface u = true := by
  cases h with
  | kept => exact .inl hs
  | drew | found | renewed | inserted | missed => cases hs
  | @spent _ _ account e tenantId token surface code asks mem holds challenges reached =>
    obtain rfl := Option.some.inj hs
    refine .inr ⟨⟨code, asks, e, mem, ?_, holds, rfl, rfl⟩, reached⟩
    have hmem := Table.mem_modify_of_mem (p := right c tenantId token surface code s.clock)
      (still_consumed s.clock) mem
    rwa [if_pos holds, ← challenges] at hmem

theorem spentBy_others {post : ℕ → Memory → Except Fault (Option User × Memory) → Store → Store → Prop}
    {Step : Memory → Store → Memory → Store → Prop} (turn : Pool.Stepped Step post q i r)
    (hj : j ≠ i) : spentBy r j = spentBy q j := by
  rw [spentBy, spentBy, turn.others j hj]

/-- What a call spent as it ended it had spent before. -/
theorem spentBy_ended (turn : Pool.Stepped (CodeSteps c calls i) (CodeEnds calls) q i r) {view : Store}
    {result : Except Fault (Option User × Memory)} (hend : r.sessions[i]? = some (.done view result))
    (hm : q.memory i = some m) {b : Store} (hpost : CodeEnds calls i m result b view)
    {spent : Spent} (h : spentBy r j = some spent) : spentBy q j = some spent := by
  by_cases hj : j = i
  · subst hj
    unfold spentBy at h
    rw [hend] at h
    cases result with
    | error e => cases h
    | ok a =>
      obtain ⟨_, -, hsigns⟩ := hpost
      rw [spentBy_of_memory hm, ← hsigns.spent]
      exact h
  · rwa [spentBy_others turn hj] at h

/-- What is spent after a turn was spent before it, or is spent in it. -/
theorem spentBy_turn (turn : Pool.Stepped (CodeSteps c calls i) (CodeEnds calls) q i r) {spent : Spent}
    (h : spentBy r j = some spent) : spentBy q j = some spent ∨ (j = i ∧
      ∃ m, r.memory i = some m ∧ (∃ code, calls[i]? =
        some (.confirmCode spent.tenantId spent.token code spent.surface) ∧
        ∃ e ∈ q.store.challenges, consumed q.store.clock e ∈ r.store.challenges ∧
          right c spent.tenantId spent.token spent.surface code q.store.clock e = true ∧
          e.email = spent.email ∧ spent.moment = q.store.clock) ∧
        ∀ u ∈ m.account, u ∈ r.store.users ∧ u.email = some spent.email ∧
          inScope spent.tenantId spent.surface u = true) := by
  obtain ⟨m, hm, hstep⟩ := turn.step
  rcases hstep with ⟨view, result, hend, -, hpost⟩ | ⟨m', hm', call, hcall, step⟩
  · exact .inl (spentBy_ended turn hend hm hpost h)
  · by_cases hj : j = i
    · rw [hj, spentBy_of_memory hm'] at h
      rcases step.spends h with hbefore | ⟨⟨code, hc, hrest⟩, hreached⟩
      · rw [hj, spentBy_of_memory hm]
        exact .inl hbefore
      · exact .inr ⟨hj, m', hm', ⟨code, hcall.trans (congrArg some hc), hrest⟩, hreached⟩
    · exact .inl ((spentBy_others turn hj).symm.trans h)

/-- What a session has in hand after its step it had before, or is a new token. -/
theorem Codes.hands (h : Codes c call m s m' t) (ha : asked ∈ m'.asked) :
    (∃ before ∈ m.asked, before.token = asked.token) ∨ s.drawn ≤ asked.token := by
  cases h with
  | kept => exact .inl ⟨asked, ha, rfl⟩
  | drew _ _ low =>
    obtain rfl := Option.some.inj ha
    exact .inr (by assumption)
  | found =>
    obtain rfl := Option.some.inj ha
    exact .inl ⟨_, rfl, rfl⟩
  | renewed | inserted | missed | spent => cases ha

/-- A turn that ends a session leaves what the others have in hand and what was spent. -/
theorem Guarded.ended (h : Guarded c calls q)
    (turn : Pool.Stepped (CodeSteps c calls i) (CodeEnds calls) q i r) {view : Store}
    {result : Except Fault (Option User × Memory)} (hend : r.sessions[i]? = some (.done view result))
    (hsame : r.store = q.store)
    (hback : ∀ j spent, spentBy r j = some spent → spentBy q j = some spent) : Guarded c calls r where
  store := hsame ▸ h.store
  inHand := fun j k hj => hsame ▸ h.inHand j k (turn.memory_ended hend hj)
  apart := fun j k mj mk hjk hj hk =>
    h.apart j k mj mk hjk (turn.memory_ended hend hj) (turn.memory_ended hend hk)
  used := fun j spent hj => hsame ▸ h.used j spent (hback j spent hj)
  free := fun j spent hj k mk hk => h.free j spent (hback j spent hj) k mk (turn.memory_ended hend hk)
  once := fun j k spent spent' hj hk => h.once j k spent spent' (hback j spent hj) (hback k spent' hk)

section Step
variable (h : Guarded c calls q)
  (turn : Pool.Stepped (CodeSteps c calls i) (CodeEnds calls) q i r) (hm : q.memory i = some m)
  (hm' : r.memory i = some m') (hcall : calls[i]? = some call)
  (step : Codes c call m q.store m' r.store)
include turn

/-- A session that had no turn has in hand what it had. -/
theorem memory_other {k : ℕ} {mk : Memory} (hki : k ≠ i) (hk : r.memory k = some mk) :
    q.memory k = some mk := (turn.memory_others hki).symm.trans hk

section
include hm hm' step

/-- What is in hand after a turn was in hand before it, or is new. -/
theorem hands_turn {k : ℕ} {mk : Memory} (hk : r.memory k = some mk) (ha : asked ∈ mk.asked) :
    (∃ mb, q.memory k = some mb ∧ ∃ before ∈ mb.asked, before.token = asked.token) ∨
      (k = i ∧ q.store.drawn ≤ asked.token) := by
  by_cases hki : k = i
  · rw [hki, hm'] at hk
    obtain rfl := Option.some.inj hk
    rcases step.hands ha with hbefore | hfresh
    · exact .inl ⟨m, hki ▸ hm, hbefore⟩
    · exact .inr ⟨hki, hfresh⟩
  · exact .inl ⟨mk, memory_other turn hki hk, asked, ha, rfl⟩

end

include h hm step

/-- What the session that had the turn has in hand is in no other hand. -/
theorem Guarded.apart_mine {k : ℕ} {mk : Memory} (hki : k ≠ i) (hk : r.memory k = some mk)
    (ha : asked ∈ m'.asked) (ha' : asked' ∈ mk.asked) : asked.token ≠ asked'.token := by
  have hk' := memory_other turn hki hk
  rcases step.hands ha with ⟨before, hbefore, htoken⟩ | hfresh
  · rw [← htoken]
    exact h.apart i k m mk (Ne.symm hki) hm hk' before hbefore asked' ha'
  · exact ((h.inHand k mk hk' asked' ha').1.drawn.trans_le hfresh).ne'

/-- The row of a token that was spent says so. -/
theorem Guarded.used_turn {spent : Spent} (hj : spentBy r j = some spent) :
    spent.token < r.store.drawn ∧
      ∀ e ∈ r.store.challenges, e.token = spent.token → e.consumedAt.isSome := by
  rcases spentBy_turn turn hj with hbefore | ⟨-, _, -, ⟨code, -, e, he, hnow, hright, -⟩, -⟩
  · obtain ⟨hdrawn, hused⟩ := h.used j spent hbefore
    refine ⟨hdrawn.trans_le step.drawn, fun e' he' ht => ?_⟩
    rcases step.cases he' with ⟨e, he, coded⟩ | ⟨asked, id, expiresAt, resendAt, rfl, rfl⟩
    · cases coded with
      | still => exact hused _ he ht
      | missed asks misses =>
        have := hused e he ht
        rw [(live_fields (wrong_live misses)).2.2.2.1] at this
        cases this
      | spent => rfl
      | renewed _ _ before held => exact absurd ht (h.free j spent hbefore i m hm _ (before ▸ rfl))
    · exact absurd ht (h.free j spent hbefore i _ hm asked rfl)
  · have htoken := (live_fields (right_live hright)).1
    refine ⟨htoken ▸ (h.store.drawn e he).trans_le step.drawn, fun e' he' ht => ?_⟩
    obtain rfl := eq_of_token he' hnow (ht.trans htoken.symm)
    rfl

include hm'

/-- A row that has the token of what is in hand is none. -/
theorem Guarded.unused_turn {k : ℕ} {mk : Memory} (hk : r.memory k = some mk) (ha : asked ∈ mk.asked)
    (he : e ∈ q.store.challenges) : asked.token ≠ e.token := by
  rcases hands_turn turn hm hm' step hk ha with ⟨mb, hmb, before, hbefore, htoken⟩ | ⟨-, hfresh⟩
  · rw [← htoken]
    exact ((h.inHand k mb hmb before hbefore).1.unused e he).symm
  · exact ((h.store.drawn e he).trans_le hfresh).ne'

theorem Guarded.apart_turn {k : ℕ} {mj mk : Memory} (hjk : j ≠ k) (hj : r.memory j = some mj)
    (hk : r.memory k = some mk) (ha : asked ∈ mj.asked) (ha' : asked' ∈ mk.asked) :
    asked.token ≠ asked'.token := by
  by_cases hji : j = i
  · subst hji
    rw [hm'] at hj
    obtain rfl := Option.some.inj hj
    exact h.apart_mine turn hm step (Ne.symm hjk) hk ha ha'
  · by_cases hki : k = i
    · subst hki
      rw [hm'] at hk
      obtain rfl := Option.some.inj hk
      exact (h.apart_mine turn hm step hji hj ha' ha).symm
    · exact h.apart j k mj mk hjk (memory_other turn hji hj) (memory_other turn hki hk) asked ha
        asked' ha'

/-- No token in hand is one that was spent. -/
theorem Guarded.free_turn {spent : Spent} {k : ℕ} {mk : Memory} (hj : spentBy r j = some spent)
    (hk : r.memory k = some mk) (ha : asked ∈ mk.asked) : asked.token ≠ spent.token := by
  rcases spentBy_turn turn hj with hbefore | ⟨-, _, -, ⟨code, -, e, he, -, hright, -⟩, -⟩
  · rcases hands_turn turn hm hm' step hk ha with ⟨mb, hmb, before, hb, htoken⟩ | ⟨-, hfresh⟩
    · rw [← htoken]
      exact h.free j spent hbefore k mb hmb before hb
    · exact ((h.used j spent hbefore).1.trans_le hfresh).ne'
  · rw [← (live_fields (right_live hright)).1]
    exact h.unused_turn turn hm hm' step hk ha he

include hcall

/-- What a session has in hand is of the request it was called with. -/
theorem Guarded.inHand_turn {k : ℕ} {mk : Memory} (hk : r.memory k = some mk)
    (ha : asked ∈ mk.asked) : Bound c r.store asked ∧ Requested c calls k asked := by
  by_cases hki : k = i
  · rw [hki, hm'] at hk
    obtain rfl := Option.some.inj hk
    obtain ⟨hbound, email, hc, haddr⟩ := Bound.own h.store step (fun asked ha => by
      obtain ⟨hbound, email, hc, haddr⟩ := h.inHand i m hm asked ha
      exact ⟨hbound, email, Option.some.inj (hcall.symm.trans hc), haddr⟩) asked ha
    exact hki ▸ ⟨hbound, email, hcall.trans (congrArg some hc), haddr⟩
  · have hk' := memory_other turn hki hk
    obtain ⟨hbound, hreq⟩ := h.inHand k mk hk' asked ha
    exact ⟨hbound.other step fun asked' ha' =>
      h.apart i k m mk (Ne.symm hki) hm hk' asked' ha' asked ha, hreq⟩

end Step

/-- A row that may be answered was not spent. -/
theorem Guarded.not_spent (h : Guarded c calls q) {spent : Spent} (hj : spentBy q j = some spent)
    (he : e ∈ q.store.challenges) (hright : right c tenantId token surface code moment e = true) :
    spent.token ≠ token := by
  intro htoken
  have hlive := live_fields (right_live hright)
  have hspent := (h.used j spent hj).2 e he (hlive.1.trans htoken.symm)
  rw [hlive.2.2.2.1] at hspent
  cases hspent

/-- A token is spent by one session. -/
theorem Guarded.once_turn (h : Guarded c calls q)
    (turn : Pool.Stepped (CodeSteps c calls i) (CodeEnds calls) q i r) {k : ℕ} {spent spent' : Spent}
    (hj : spentBy r j = some spent) (hk : spentBy r k = some spent')
    (htoken : spent.token = spent'.token) : j = k := by
  rcases spentBy_turn turn hj with hjb | ⟨hji, _, -, ⟨code, -, e, he, -, hright, -⟩, -⟩
  · rcases spentBy_turn turn hk with hkb | ⟨hki, _, -, ⟨code, -, e, he, -, hright, -⟩, -⟩
    · exact h.once j k spent spent' hjb hkb htoken
    · exact absurd htoken (h.not_spent hjb he hright)
  · rcases spentBy_turn turn hk with hkb | ⟨hki, -⟩
    · exact absurd htoken.symm (h.not_spent hkb he hright)
    · exact hji.trans hki.symm

theorem Guarded.turn (h : Guarded c calls q)
    (turn : Pool.Stepped (CodeSteps c calls i) (CodeEnds calls) q i r) : Guarded c calls r := by
  obtain ⟨m, hm, hstep⟩ := id turn.step
  rcases hstep with ⟨view, result, hend, hsame, hpost⟩ | ⟨m', hm', call, hcall, step⟩
  · exact h.ended turn hend hsame fun j spent => spentBy_ended turn hend hm hpost
  · exact {
      store := h.store.step step fun asked ha => (h.inHand i m hm asked ha).1
      inHand := fun k mk hk asked ha => h.inHand_turn turn hm hm' hcall step hk ha
      apart := fun j k mj mk hjk hj hk asked ha asked' ha' =>
        h.apart_turn turn hm hm' step hjk hj hk ha ha'
      used := fun j spent hj => h.used_turn turn hm step hj
      free := fun j spent hj k mk hk asked ha => h.free_turn turn hm hm' step hj hk ha
      once := fun j k spent spent' hj hk htoken => h.once_turn turn hj hk htoken }

theorem guarded_start (hs : Scoped c s) : Guarded c calls (sessions c calls s) := by
  have hmemory : ∀ i m, (sessions c calls s).memory i = some m → m = Memory.empty := by
    intro i m hm
    obtain ⟨_, _, rfl⟩ := Pool.memory_sessions hm
    rfl
  have hnone : ∀ i, spentBy (sessions c calls s) i = none := by
    intro i
    unfold spentBy
    cases h : (sessions c calls s).sessions[i]? with
    | none => rfl
    | some o =>
      simp only [sessions, List.getElem?_map, Option.map_eq_some_iff] at h
      obtain ⟨call, -, rfl⟩ := h
      rfl
  refine ⟨hs, fun i m hm asked ha => ?_, fun i j m k _ hm _ asked ha => ?_, by simp [hnone],
    by simp [hnone], by simp [hnone]⟩
  · rw [hmemory i m hm] at ha
    cases ha
  · rw [hmemory i m hm] at ha
    cases ha

theorem run_guarded (hcalls : ∀ call ∈ calls, call.codes = true) (hs : Scoped c s)
    (run : Pool.Run ok (sessions c calls s) l q) : Guarded c calls q :=
  run.invariant (stepping_codes hcalls s) (guarded_start hs) fun _ _ _ _ turn h => h.turn turn

/-- A token nobody is about to write, whose rows satisfy `P`. -/
structure Standing (token : ℕ) (P : EmailLoginChallenge → Prop) (q : Sessions) : Prop where
  drawn : token < q.store.drawn
  free : ∀ j m, q.memory j = some m → ∀ asked ∈ m.asked, asked.token ≠ token
  rows : ∀ e ∈ q.store.challenges, e.token = token → P e

theorem Standing.turn {P : EmailLoginChallenge → Prop} (h : Standing token P q)
    (hm : ∀ e, P e → P (missed e)) (hc : ∀ moment e, P e → P (consumed moment e))
    (turn : Pool.Stepped (CodeSteps c calls i) (CodeEnds calls) q i r) : Standing token P r := by
  obtain ⟨m, hm', hstep⟩ := id turn.step
  rcases hstep with ⟨view, result, hend, hsame, -⟩ | ⟨m', hr, call, -, step⟩
  · exact ⟨hsame ▸ h.drawn, fun j k hj => h.free j k (turn.memory_ended hend hj), hsame ▸ h.rows⟩
  · refine ⟨h.drawn.trans_le step.drawn, fun j k hj asked ha => ?_, fun e' he' ht => ?_⟩
    · by_cases hji : j = i
      · rw [hji, hr] at hj
        obtain rfl := Option.some.inj hj
        rcases step.hands ha with ⟨before, hb, hsame⟩ | hfresh
        · rw [← hsame]
          exact h.free i m hm' before hb
        · exact (h.drawn.trans_le hfresh).ne'
      · exact h.free j k ((turn.memory_others hji).symm.trans hj) asked ha
    · rcases step.cases he' with ⟨e, he, coded⟩ | ⟨asked, id, expiresAt, resendAt, rfl, rfl⟩
      · cases coded with
        | still => exact h.rows _ he ht
        | missed => exact hm e (h.rows e he ht)
        | spent => exact hc _ e (h.rows e he ht)
        | renewed _ _ before => exact absurd ht (h.free i m hm' _ (before ▸ rfl))
      · exact absurd ht (h.free i _ hm' asked rfl)

theorem run_standing (hcalls : ∀ call ∈ calls, call.codes = true)
    (run : Pool.Run ok (sessions c calls s) l q) (more : Pool.Run ok q k r)
    {P : EmailLoginChallenge → Prop} (h : Standing token P q) (hm : ∀ e, P e → P (missed e))
    (hc : ∀ moment e, P e → P (consumed moment e)) : Standing token P r := by
  induction more with
  | start => exact h
  | turn i past taken _ ih =>
    exact ih.turn hm hc ((run.append past).stepped (stepping_codes hcalls s) taken)

/-- The token of a row is in nobody's hand. -/
theorem Guarded.standing (h : Guarded c calls q) (he : e ∈ q.store.challenges)
    {P : EmailLoginChallenge → Prop} (hP : P e) : Standing e.token P q :=
  ⟨h.store.drawn e he, fun j m hm asked ha => ((h.inHand j m hm asked ha).1.unused e he).symm,
    fun _ he' ht => eq_of_token he' he ht ▸ hP⟩

/-- A token that no row has anymore is spent no more. -/
theorem run_replaced (hcalls : ∀ call ∈ calls, call.codes = true)
    (run : Pool.Run ok (sessions c calls s) l q) (more : Pool.Run ok q k r)
    (h : Standing token (fun _ => False) q) {spent : Spent} (hs : spentBy r i = some spent)
    (ht : spent.token = token) : spentBy q i = some spent := by
  induction more with
  | start => exact hs
  | turn j past taken _ ih =>
    rcases spentBy_turn ((run.append past).stepped (stepping_codes hcalls s) taken) hs with
      hbefore | ⟨-, _, -, ⟨code, -, e, he, -, hright, -⟩, -⟩
    · exact ih hbefore
    · have hstands := run_standing hcalls run past h (fun _ h => h) fun _ _ h => h
      exact (hstands.rows e he ((live_fields (right_live hright)).1.trans ht)).elim

/-- Who spent a code writes nothing more of any. -/
theorem Codes.stays (h : Codes c call m s m' t) {spent : Spent} (hs : m.spent = some spent) :
    m' = m := by
  cases h with
  | kept => rfl
  | drew | found | renewed | inserted | missed | spent => cases hs

/-- Where a code was spent the session only opens the account it recalls. -/
theorem run_opens (hcalls : ∀ call ∈ calls, call.codes = true)
    (run : Pool.Run ok (sessions c calls s) l q) (more : Pool.Run ok q k r) {spent : Spent}
    (hm : q.memory i = some m) (hs : m.spent = some spent) : r.memory i = some m ∨
      ∃ view result, r.sessions[i]? = some (.done view result) ∧
        ∀ o k, result = .ok (o, k) → ∀ u ∈ o, ∃ account ∈ m.account, u.id = account.id := by
  induction more with
  | start => exact .inl hm
  | @turn trace q' r' j past taken _ ih =>
    have turn := (run.append past).stepped (stepping_codes hcalls s) taken
    by_cases hij : i = j
    · subst hij
      obtain ⟨m', hm', hstep⟩ := turn.step
      rcases ih with hkept | ⟨view, result, hdone, -⟩
      · obtain rfl := Option.some.inj (hkept.symm.trans hm')
        rcases hstep with ⟨view, result, hend, -, hpost⟩ | ⟨m'', hm'', call, -, step⟩
        · refine .inr ⟨view, result, hend, ?_⟩
          rintro o k rfl
          obtain ⟨_, -, hsigns⟩ := hpost
          exact hsigns.account
        · exact .inl (step.stays hs ▸ hm'')
      · rw [Pool.memory, hdone] at hm'
        cases hm'
    · rcases ih with hkept | ⟨view, result, hdone, hopens⟩
      · exact .inl ((turn.memory_others hij).trans hkept)
      · exact .inr ⟨view, result, (turn.others i hij).trans hdone, hopens⟩

/-- A token that no row had is written by the request it was drawn for, with its letter. -/
theorem Codes.writes (h : Codes c call m s m' t) (he' : e' ∈ t.challenges)
    (hnew : ∀ e ∈ s.challenges, e.token ≠ e'.token) : ∃ asked ∈ m.asked,
      t.letters = s.letters ++ [asked.letter] ∧
      e'.codeDigest = c.vault.codeDigest e'.token asked.code ∧ e'.attempts = 0 ∧
      e'.consumedAt = none ∧ (e'.scope = asked.scope ∨
        ∃ e ∈ s.challenges, asked.row = some e.id ∧ e'.scope = e.scope) := by
  have hmodify : ∀ {p f} (hf : Still f), (∀ e, (f e).token = e.token) →
      e' ∉ s.challenges.modify p f hf := by
    intro p f hf ht hmem
    obtain ⟨e, he, rfl⟩ := (Table.mem_modify hf).mp hmem
    refine hnew e he ?_
    split_ifs
    · exact (ht e).symm
    · rfl
  cases h with
  | kept challenges | drew _ _ _ _ _ challenges => exact absurd rfl (hnew e' (challenges ▸ he'))
  | found => exact absurd rfl (hnew e' he')
  | @renewed _ _ asked id expiresAt resendAt p held one rows letters =>
    obtain ⟨e, he, heq⟩ := (rows e').mp he'
    split_ifs at heq with hp
    · subst heq
      exact ⟨asked, rfl, letters, rfl, rfl, rfl, .inr ⟨e, he,
        held.trans (congrArg some (one e hp).symm), rfl⟩⟩
    · exact absurd (heq ▸ rfl) (hnew e he)
  | @inserted _ _ asked id expiresAt resendAt rows letters =>
    rcases (rows e').mp he' with hmem | rfl
    · exact absurd rfl (hnew e' hmem)
    · exact ⟨asked, rfl, letters, rfl, rfl, rfl, .inl rfl⟩
  | missed => exact absurd he' (hmodify still_missed fun _ => rfl)
  | spent _ _ _ challenges =>
    exact absurd (challenges ▸ he') (hmodify (still_consumed _) fun _ => rfl)

/-- A wrong guess at a code that may still be answered is counted in the first commit. -/
theorem confirmCode_misses (available : c.settings.email.available surface = true)
    (he : e ∈ s.challenges) (hw : wrong c tenantId token surface code s.clock e = true) :
    missed e ∈ (((Call.confirmCode tenantId token code surface).serve c Memory.empty s s).published
      s).challenges := by
  -- the first segment ends with the miss published
  let first : Contract Bool Memory Store := ⟨fun _ _ _ => True,
    fun g _ g' v => g' = true ∧ (g = false → missed e ∈ v.challenges), fun _ _ => True, True⟩
  have hmeets : ((Call.confirmCode tenantId token code surface).serve c).Meets first
      (fun g _ _ _ => g = true) false Memory.empty s s := by
    have hnone : s.challenges.find (fun e => live c tenantId token surface s.clock e &&
        e.codeDigest == c.vault.codeDigest token code) = none := by
      by_contra hsome
      obtain ⟨other, hother⟩ := Option.ne_none_iff_exists'.mp hsome
      have hright : right c tenantId token surface code s.clock other = true := Table.find_holds hother
      obtain rfl := eq_of_token (Table.mem_of_find hother) he
        ((live_fields (right_live hright)).1.trans (live_fields (wrong_live hw)).1.symm)
      simp only [right, wrong, Bool.and_eq_true, beq_iff_eq, bne_iff_ne] at hright hw
      exact hw.2 hright.2
    simp only [Call.serve, confirmCode, requireEmail, available, if_true, now, writeChallenges,
      meets_bind, meets_query, meets_pure, ending_ok]
    rw [hnone]
    simp only [meets_bind, meets_execute, ending_ok]
    refine meets_publish.mpr ⟨true, ⟨rfl, fun _ => ?_⟩, trivial, fun _ _ => rfl⟩
    have hmem := Table.mem_modify_of_mem (p := wrong c tenantId token surface code s.clock)
      still_missed he
    rwa [if_pos hw] at hmem
  unfold Program.Meets at hmeets
  cases hout : (Call.confirmCode tenantId token code surface).serve c Memory.empty s s with
  | done view result =>
    rw [hout] at hmeets
    cases hmeets
  | pause memory view ready next =>
    rw [hout] at hmeets
    obtain ⟨_, hguar, -⟩ := hmeets
    exact hguar.2 rfl

/-- Every confirmation that ended well spent the code of its token, where it was asked. -/
def SpentCodes (calls : List Call) (q : Sessions) : Prop :=
  ∀ (i : ℕ) (tenantId : Option ℕ) (token : ℕ) (code : String) (surface : AuthenticationSurface)
    (view : Store) (o : Option User) (m : Memory),
    calls[i]? = some (.confirmCode tenantId token code surface) →
    q.sessions[i]? = some (.done view (.ok (o, m))) →
    ∃ spent ∈ m.spent, spent.token = token ∧ spent.tenantId = tenantId ∧ spent.surface = surface

theorem run_spentCodes (hcalls : ∀ call ∈ calls, call.codes = true)
    (run : Pool.Run ok (sessions c calls s) l q) : SpentCodes calls q := by
  refine run.invariant (stepping_codes hcalls s) ?_ fun q i r _ turn h => ?_
  · intro i tenantId token code surface view o m _ hdone
    simp [sessions, session] at hdone
  · intro j tenantId token code surface view o k hcall hdone
    obtain ⟨m, hm, hstep⟩ := turn.step
    by_cases hj : j = i
    · subst hj
      rcases hstep with ⟨view', result, hend, -, hpost⟩ | ⟨m', hm', -⟩
      · obtain ⟨-, rfl⟩ := Outcome.done.inj (Option.some.inj (hend.symm.trans hdone))
        obtain ⟨call, hcall', hsigns⟩ := hpost
        exact hsigns.confirms tenantId token code surface
          (Option.some.inj (hcall'.symm.trans hcall))
      · rw [Pool.memory, hdone] at hm'
        cases hm'
    · exact h j tenantId token code surface view o k hcall ((turn.others j hj).symm.trans hdone)

/-- A confirmation that ended spent the token it was asked to. -/
def Spends (calls : List Call) (q : Sessions) : Prop :=
  ∀ (i : ℕ) (tenantId : Option ℕ) (token : ℕ) (code : String) (surface : AuthenticationSurface)
    (view : Store) (o : Option User) (m : Memory),
    calls[i]? = some (.confirmCode tenantId token code surface) →
    q.sessions[i]? = some (.done view (.ok (o, m))) → ∃ spent, spentBy q i = some spent ∧
      spent.token = token ∧ spent.tenantId = tenantId ∧ spent.surface = surface

/-- A turn that spends a code finds the row of that token, brand, surface and address, which may be
answered and has the code, and the session opens no other account than one of that address. -/
def SpendsRight (c : Setup) (calls : List Call) (ok : Sessions → ℕ → Sessions → Prop)
    (q : Sessions) : Prop :=
  ∀ i r spent, q.turn i = some r → spentBy r i = some spent → spentBy q i ≠ some spent →
    (∃ e ∈ q.store.challenges, e.token = spent.token ∧
      e.scope = (spent.tenantId, spent.surface, spent.email) ∧ e.consumedAt = none ∧
      q.store.clock < e.expiresAt ∧ e.attempts < c.settings.email.maxAttempts ∧
      ∃ code, calls[i]? = some (.confirmCode spent.tenantId spent.token code spent.surface) ∧
        e.codeDigest = c.vault.codeDigest spent.token code) ∧
    (ok q i r → ∀ k u, Pool.Run ok r k u → ∀ view user m,
      u.sessions[i]? = some (.done view (.ok (some user, m))) → ∃ account ∈ r.store.users,
        account.id = user.id ∧ account.email = some spent.email ∧
        inScope spent.tenantId spent.surface account = true)

/-- A token stays with its row, and is spent no more once the row has another. -/
def StaysWithRow (ok : Sessions → ℕ → Sessions → Prop) (q : Sessions) : Prop :=
  ∀ k r, Pool.Run ok q k r → ∀ e ∈ q.store.challenges, ∀ e' ∈ r.store.challenges,
    (e'.token = e.token → e'.id = e.id ∧ e'.scope = e.scope ∧ e'.expiresAt = e.expiresAt ∧
      e'.codeDigest = e.codeDigest ∧ e.attempts ≤ e'.attempts) ∧
    (e'.id = e.id → e'.token ≠ e.token → ∀ k' u, Pool.Run ok r k' u → ∀ i spent,
      spentBy u i = some spent → spent.token = e.token → spentBy r i = some spent)

/-- A token no row had is written by a request, with the letter to its address. -/
def WritesAsked (c : Setup) (calls : List Call) (q : Sessions) : Prop :=
  ∀ i r, q.turn i = some r → ∀ e' ∈ r.store.challenges,
    (∀ e ∈ q.store.challenges, e.token ≠ e'.token) → ∃ tenantId email surface code,
      calls[i]? = some (.requestCode tenantId email surface code) ∧
      e'.scope = (tenantId, surface, c.alphabet.lower email) ∧
      e'.codeDigest = c.vault.codeDigest e'.token code ∧ e'.attempts = 0 ∧ e'.consumedAt = none ∧
      r.store.letters = q.store.letters ++
        [⟨"sign-in-code", none, some (c.alphabet.lower email), none, some code⟩]

/-- A wrong guess at a code that may be answered is counted. -/
def CountsMisses (c : Setup) (calls : List Call) (s : Store) (q : Sessions) : Prop :=
  ∀ i r tenantId token code surface, q.turn i = some r →
    q.sessions[i]? = (sessions c calls s).sessions[i]? →
    calls[i]? = some (.confirmCode tenantId token code surface) →
    c.settings.email.available surface = true → ∀ e ∈ q.store.challenges,
      wrong c tenantId token surface code q.store.clock e = true →
      missed e ∈ r.store.challenges

theorem countsMisses : CountsMisses c calls s q := by
  intro i r tenantId token code surface taken huntouched hcall available e he hw
  obtain ⟨_, _, _, _, hget, -, rfl⟩ := Pool.turn_eq_some taken
  have hsession : (sessions c calls s).sessions[i]? = some (session ((Call.confirmCode tenantId token
      code surface).serve c) Memory.empty s) := by
    simp [sessions, hcall]
  rw [huntouched, hsession] at hget
  obtain ⟨-, -, -, rfl⟩ := Outcome.pause.inj (Option.some.inj hget)
  exact confirmCode_misses available he hw

section Clauses
variable (hcalls : ∀ call ∈ calls, call.codes = true) (hs : Scoped c s)
  (run : Pool.Run ok (sessions c calls s) l q)
include hcalls run

theorem run_spends : Spends calls q := by
  intro i tenantId token code surface view o m hcall hdone
  obtain ⟨spent, hspent, hrest⟩ :=
    run_spentCodes hcalls run i tenantId token code surface view o m hcall hdone
  refine ⟨spent, ?_, hrest⟩
  unfold spentBy
  rw [hdone]
  exact hspent

theorem run_spendsRight : SpendsRight c calls ok q := by
  intro i r spent taken hspent hnew
  have turn := run.stepped (stepping_codes hcalls s) taken
  rcases spentBy_turn turn hspent with hbefore |
    ⟨-, m, hm, ⟨code, hcall, e, he, -, hright, hemail, -⟩, hreached⟩
  · exact absurd hbefore hnew
  have hlive := live_fields (right_live hright)
  refine ⟨⟨e, he, hlive.1, ?_, hlive.2.2.2.1, hlive.2.2.2.2.1, hlive.2.2.2.2.2, code, hcall, ?_⟩, ?_⟩
  · rw [EmailLoginChallenge.scope, hlive.2.1, hlive.2.2.1, hemail]
  · simp only [right, Bool.and_eq_true, beq_iff_eq] at hright
    exact hright.2
  · intro hok k u more view user m' hdone
    have hms : m.spent = some spent := (spentBy_of_memory hm).symm.trans hspent
    rcases run_opens hcalls (run.turn i taken hok) more hm hms with
      hkept | ⟨view', result, hend, hopens⟩
    · rw [Pool.memory, hdone] at hkept
      cases hkept
    · obtain ⟨-, hresult⟩ := Outcome.done.inj (Option.some.inj (hend.symm.trans hdone))
      obtain ⟨account, hacc, hid⟩ := hopens _ _ hresult user rfl
      obtain ⟨hmem, hemail, hscope⟩ := hreached account hacc
      exact ⟨account, hmem, hid.symm, hemail, hscope⟩

include hs

theorem run_staysWithRow : StaysWithRow ok q := by
  have hguarded := run_guarded hcalls hs run
  intro k r more e he e' he'
  constructor
  · intro ht
    have hstands := run_standing hcalls run more (hguarded.standing he (P := fun now =>
      now.id = e.id ∧ now.scope = e.scope ∧ now.expiresAt = e.expiresAt ∧
        now.codeDigest = e.codeDigest ∧ e.attempts ≤ now.attempts) ⟨rfl, rfl, rfl, rfl, le_rfl⟩)
      (fun now h => ⟨h.1, h.2.1, h.2.2.1, h.2.2.2.1, h.2.2.2.2.trans (Nat.le_succ _)⟩)
      (fun _ now h => h)
    exact hstands.rows e' he' ht
  · intro hid hne k' u later i spent hspent ht
    have hstands := run_standing hcalls run more (hguarded.standing he (P := fun now =>
      now.id = e.id) rfl) (fun _ h => h) (fun _ _ h => h)
    refine run_replaced hcalls (run.append more) later ⟨hstands.drawn, hstands.free, ?_⟩ hspent ht
    intro now hnow htoken
    obtain rfl := Table.eq_of_id hnow he' ((hstands.rows now hnow htoken).trans hid.symm)
    exact hne htoken

theorem run_writesAsked : WritesAsked c calls q := by
  have hguarded := run_guarded hcalls hs run
  intro i r taken e' he' hnew
  obtain ⟨m, hm, hstep⟩ := (run.stepped (stepping_codes hcalls s) taken).step
  rcases hstep with ⟨-, -, -, hsame, -⟩ | ⟨m', -, call, -, step⟩
  · exact absurd rfl (hnew e' (hsame ▸ he'))
  obtain ⟨asked, ha, hletters, hdigest, hattempts, hconsumed, hscope⟩ := step.writes he' hnew
  obtain ⟨hbound, email, hcall, haddress⟩ := hguarded.inHand i m hm asked ha
  refine ⟨asked.tenantId, email, asked.surface, asked.code, hcall, ?_, hdigest, hattempts, hconsumed, ?_⟩
  · rw [← haddress]
    rcases hscope with hscope | ⟨e, he, hrow, hscope⟩
    · exact hscope
    · -- the row that was found stands under the scope of the request
      rw [hscope]
      exact c.vault.scope_injective ((hguarded.store.scope e he).symm.trans
        ((hbound.row e.id hrow).2 e he rfl))
  · rw [hletters, ← haddress]
    rfl

end Clauses

/-- In every run of requests and confirmations no more misses are counted of a code than may be, no
two confirmations spend one token, and one that ended well spent its own, of a row it found standing
under the token. -/
theorem code_opens_one_session {calls : List Call} {s : Store}
    (hcalls : ∀ call ∈ calls, call.codes = true) (hs : Scoped c s)
    (run : Pool.Run ok (sessions c calls s) l q) :
    (∀ e ∈ q.store.challenges, e.attempts ≤ c.settings.email.maxAttempts) ∧
    (∀ i j spent spent', spentBy q i = some spent → spentBy q j = some spent' →
      spent.token = spent'.token → i = j) ∧
    Spends calls q ∧ SpendsRight c calls ok q ∧ StaysWithRow ok q ∧ WritesAsked c calls q ∧
      CountsMisses c calls s q :=
  have hguarded := run_guarded hcalls hs run
  ⟨hguarded.store.within, hguarded.once, run_spends hcalls run, run_spendsRight hcalls run,
    run_staysWithRow hcalls hs run, run_writesAsked hcalls hs run, countsMisses⟩

theorem Desk.scoped_nobody : Scoped (Desk.setup []) Desk.nobody :=
  ⟨fun _ h => absurd h Table.not_mem_empty, fun _ h => absurd h Table.not_mem_empty,
    fun _ h => absurd h Table.not_mem_empty⟩

/-- A code is requested, guessed wrong, answered and answered again. -/
theorem code_opens_one_session_once : ∃ trace q, Pool.Run (fun _ _ _ => True)
    (sessions (Desk.setup []) [.requestCode none "Reader@site" .site "123456",
      .confirmCode none 0 "000000" .site, .confirmCode none 0 "123456" .site,
      .confirmCode none 0 "123456" .site] Desk.nobody) trace q ∧
    spentBy q 2 = some ⟨0, none, .site, "reader@site", 0⟩ ∧
    (∃ e ∈ q.store.challenges, e.attempts = 1) ∧
    ∀ j spent, spentBy q j = some spent → spent.token = 0 → j = 2 := by
  obtain ⟨trace, q, run, hspent, hmissed⟩ := Pool.exists_run (fun _ _ _ => True)
    (sessions (Desk.setup []) [.requestCode none "Reader@site" .site "123456",
      .confirmCode none 0 "000000" .site, .confirmCode none 0 "123456" .site,
      .confirmCode none 0 "123456" .site] Desk.nobody) [0, 0, 0, 0, 1, 1, 2, 2, 2, 3, 3]
    (fun q => spentBy q 2 = some ⟨0, none, .site, "reader@site", 0⟩ ∧
      ∃ e ∈ q.store.challenges, e.attempts = 1) (by decide +kernel)
  exact ⟨trace, q, run, hspent, hmissed, fun j spent hj ht =>
    (code_opens_one_session (by decide) Desk.scoped_nobody run).2.1 j 2 spent _ hj hspent ht⟩

end FastKit.Accounts
