import FastKit.Reconciliation.Baseless
import FastKit.Runs
import Mathlib.Data.Finset.Card

/-! # Whom the sweep asks next

A pass reads whoever was answered for longest ago first, and its window, its limit and the
keys a gateway refuses say whom it comes to. What it comes to is told by the gateway alone,
and so is the order the next pass reads in.
-/

namespace FastKit
open Transaction Transaction.Program

/-- The questions of a pass: each account it asks about, with the moment it was answered for. -/
def questions (G : Gateway) (deadline : ℕ) :
    List (ℕ × ℕ) → List ℕ → ℕ → List ((ℕ × ℕ) × Option ℕ)
  | [], _, _ => []
  | (integrationId, userId) :: rest, unreadable, moment =>
    let lasts := (G.answer integrationId userId moment).1
    let paced := fun moment => if rest ≠ [] then moment + pace else moment
    if deadline ≤ moment then []
    else if unreadable.contains integrationId then questions G deadline rest unreadable moment
    else if !G.hasSecret integrationId then
      questions G deadline rest (integrationId :: unreadable) moment
    else
      match (G.answer integrationId userId moment).2 with
      | .held _ => ((integrationId, userId), some (moment + lasts)) ::
        questions G deadline rest unreadable (paced (moment + lasts))
      | .rateLimited seconds => ((integrationId, userId), none) ::
        questions G deadline rest unreadable (paced (moment + lasts + seconds * Calendar.second))
      | .silent _ => ((integrationId, userId), none) ::
        questions G deadline rest unreadable (paced (moment + lasts))
      | .refused => ((integrationId, userId), none) ::
        questions G deadline rest (integrationId :: unreadable) (moment + lasts)

/-- What the answers of a pass write, the latest first. -/
def stamps (asked : List ((ℕ × ℕ) × Option ℕ)) : List (ℕ × ℕ) :=
  (asked.filterMap (fun question => question.2.map (question.1.2, ·))).reverse

theorem stamps_cons (question : (ℕ × ℕ) × Option ℕ) (rest : List ((ℕ × ℕ) × Option ℕ)) :
    stamps (question :: rest) = stamps rest ++ stamps [question] := by
  obtain ⟨account, _ | moment⟩ := question <;> simp [stamps]

variable {W : Scope} {s t : Store}

theorem Change.reconciled (c : Change W s t) (h : ∀ user moment, ¬W.stamp user moment) :
    t.reconciled = s.reconciled := by
  cases c with
  | aside clock catalog benefits grants transactions userProducts purchases events reconciled =>
    exact reconciled
  | stamp user moment allowed => exact absurd allowed (h user moment)
  | _ => rfl

theorem Change.clock (c : Change W s t) (h : ¬W.tick) : t.clock = s.clock :=
  Path.clock (.single c) h

/-- The contract of a session that nobody else runs beside. -/
def aloneContract : Contract Memory Memory Store where
  rely := fun _ s t => s = t
  guar := fun _ _ _ _ => True
  shows := Eq
  prompt := True

/-- Such a session while it takes an answer in: no time goes by, and nobody is answered for. -/
def alone (reconciled : List (ℕ × ℕ)) (moment : ℕ) : Setting where
  contract := aloneContract
  scope := fun _ _ => { Scope.any with stamp := fun _ _ => False, edit := False, tick := False }
  shows := fun _ _ _ => True
  fault := fun e => ¬Setting.Fault.outage e
  inv := fun _ s => s.reconciled = reconciled ∧ s.clock = moment
  lapses := fun duration => duration = 0
  prompt := rfl
  rely := fun h => h ▸ .refl
  guar := fun _ _ _ _ => trivial
  waits := fun _ => rfl
  restart := fun _ _ => trivial
  rescued := fun _ _ => trivial
  loads := fun _ _ _ _ => trivial
  plan := fun _ _ => trivial
  faults := Setting.Fault.not_outage
  inv_change := fun c h => ⟨(c.reconciled fun _ _ h => h).trans h.1, (c.clock fun h => h).trans h.2⟩
  inv_rely := fun _ h hs => h ▸ hs
  inv_tick := by
    rintro g s duration rfl h
    exact h
  unedited := fun _ _ h => h
  untimed := fun _ _ h => h

theorem alone_able (reconciled : List (ℕ × ℕ)) (moment : ℕ) : (alone reconciled moment).Able :=
  Setting.Works.able ⟨⟨fun _ _ _ _ _ => trivial⟩, fun _ _ _ _ => trivial, fun _ _ _ => trivial⟩
    (fun _ _ _ _ => trivial) (fun _ _ _ => trivial) (fun _ _ _ => trivial)

variable {α : Type} {r : List (ℕ × ℕ)} {c : ℕ} {g m : Memory} {b v : Store}

/-- Where a segment of a lone session stands, after it let time go by. -/
theorem alone_elapse {post : Memory → Except Fault (Unit × Memory) → Store → Store → Prop}
    (h : (alone r c).Inside g m b v) (duration : ℕ)
    (hp : ∀ t, (alone r (c + duration)).Inside m m t t → post m (.ok ((), m)) t t) :
    (elapse duration).Meets aloneContract post g m b v := by
  have hv := h.view
  rw [elapse, meets_bind, meets_execute, ending_ok, meets_publish]
  refine ⟨m, trivial, rfl, ?_⟩
  rintro _ rfl
  exact hp _ ⟨⟨hv.1, by rw [← hv.2]⟩, .refl, fun x hx => h.copies x hx, fun x hx => h.orders x hx,
    trivial⟩

/-- An answer is taken in with the account stamped. -/
theorem alone_apply (h : (alone r c).Inside g m b v) (integration : Integration) (user : User)
    (held : List ProviderPurchase) (statedAt : Option ℕ) :
    (apply integration user held true statedAt).Meets aloneContract
      (ending (fun g p b v => (alone ((user.id, c) :: r) c).Inside g p.2 b v)
        (fun _ e _ _ => ¬Setting.Fault.outage e))
      g m b { v with reconciled := (user.id, c) :: v.reconciled } := by
  have hv := h.view
  have hin : (alone ((user.id, c) :: r) c).Inside g m
      { v with reconciled := (user.id, c) :: v.reconciled }
      { v with reconciled := (user.id, c) :: v.reconciled } :=
    ⟨⟨by rw [← hv.1], hv.2⟩, .refl, fun x hx => h.copies x hx, fun x hx => h.orders x hx, trivial⟩
  refine Meets.rebase (apply_baseless _ _ _ _ _) (apply_publishes _ _ _ _ _) (fun _ _ h => h)
    (fun _ _ _ h => h) (b := { v with reconciled := (user.id, c) :: v.reconciled }) ?_
  refine (Setting.apply_keeps (alone_able _ _) integration user held true statedAt
    _ _ _ _ hin).mono ?_
  rintro g (e | ⟨a, m⟩) b v hk
  · exact hk.fault
  · exact hk

/-- How a question ends: answered and taken in, or left unanswered with the time gone by. -/
def Questioned (G : Gateway) (integration user : ℕ) (r : List (ℕ × ℕ)) (c : ℕ) (m : Memory) :
    Memory → Except Fault (α × Memory) → Store → Store → Prop :=
  let lasts := (G.answer integration user c).1
  let said := (G.answer integration user c).2
  ending (fun g p b v => (∃ held, said = .held held) ∧
      (alone ((user, c + lasts) :: r) (c + lasts)).Inside g p.2 b v)
    (fun g e b v =>
      (∃ text seconds, e = .silent text ∧ said = .rateLimited seconds ∧
        (alone r (c + lasts + seconds * Calendar.second)).Inside g m b v) ∨
      (∃ text text', e = .silent text ∧ said = .silent text' ∧ (alone r (c + lasts)).Inside g m b v) ∨
      (∃ text, e = .unreadable text ∧ said = .refused ∧ (alone r (c + lasts)).Inside g m b v) ∨
      ¬Setting.Fault.outage e)

theorem against_alone (h : (alone r c).Inside g m b v) (G : Gateway) (integration : Integration)
    (user : User) : (against G integration user).Meets aloneContract
      (Questioned G integration.id user.id r c m) g m b v := by
  rw [against, meets_bind, now, meets_query, ending_ok, h.view.2, meets_bind]
  refine alone_elapse h _ fun t h => ?_
  rw [ending_ok]
  cases hs : (G.answer integration.id user.id c).2 with
  | rateLimited seconds =>
    rw [meets_bind]
    exact alone_elapse h _ fun t h => .inl ⟨_, seconds, rfl, hs, h⟩
  | silent text => exact .inr (.inl ⟨_, text, rfl, hs, h⟩)
  | refused =>
    refine (Setting.refused_meets _ _ _ _ _ h).mono ?_
    rintro g (e | ⟨a, m'⟩) b v hk
    · by_cases he : Setting.Fault.outage e
      · obtain ⟨rfl, hin⟩ := hk.2 he
        exact .inr (.inr (.inl ⟨_, rfl, hs, hin⟩))
      · exact .inr (.inr (.inr he))
    · exact hk.elim
  | held held =>
    simp only [meets_bind, meets_query, meets_execute, ending_ok]
    rw [show (user.id, t.clock) = (user.id, c + (G.answer integration.id user.id c).1) by
      rw [h.view.2]]
    refine (alone_apply h integration user held (some c)).mono ?_
    rintro g (e | ⟨a, m'⟩) b v hk
    · exact .inr (.inr (.inr hk))
    · exact ⟨⟨held, hs⟩, hk⟩

/-- How a pass ends: with whom it asked, and everybody answered for stamped. -/
def Swept (asked : List ((ℕ × ℕ) × Option ℕ)) (r : List (ℕ × ℕ)) :
    Memory → Except Fault ((ℕ × List (ℕ × ℕ)) × Memory) → Store → Store → Prop :=
  ending (fun g p b v => p.1.2 = asked.map Prod.fst ∧ ∃ c,
    (alone (stamps asked ++ r) c).Inside g p.2 b v) (fun _ _ _ _ => True)

theorem swept_cons {question : (ℕ × ℕ) × Option ℕ} {asked : List ((ℕ × ℕ) × Option ℕ)}
    {sweep : Db (ℕ × List (ℕ × ℕ))} (changes : ℕ → ℕ)
    (hs : sweep.Meets aloneContract (Swept asked (stamps [question] ++ r)) g m b v) :
    (do
      let (touched, others) ← sweep
      pure (changes touched, question.1 :: others)).Meets aloneContract
        (Swept (question :: asked) r) g m b v := by
  refine hs.bind ?_ (fun _ _ _ _ _ => trivial)
  rintro g ⟨touched, others⟩ m b v ⟨ho, c, hin⟩
  refine ⟨by simpa using ho, c, ?_⟩
  rwa [stamps_cons, List.append_assoc]

/-- Between two questions a pass waits, where another one follows. -/
theorem swept_paced {G : Gateway} {deadline : ℕ} {rest : List (ℕ × ℕ)} {unreadable : List ℕ}
    (hrest : ∀ {r c g m b v}, (alone r c).Inside g m b v →
      (sweepEach G deadline rest unreadable).Meets aloneContract
        (Swept (questions G deadline rest unreadable c) r) g m b v)
    (question : (ℕ × ℕ) × Option ℕ) (changes : ℕ → ℕ)
    (h : (alone (stamps [question] ++ r) c).Inside g m b v) :
    (if rest ≠ [] then elapse pace >>= fun _ => (do
        let (touched, others) ← sweepEach G deadline rest unreadable
        pure (changes touched, question.1 :: others))
      else do
        let (touched, others) ← sweepEach G deadline rest unreadable
        pure (changes touched, question.1 :: others)).Meets aloneContract
      (Swept (question :: questions G deadline rest unreadable
        (if rest ≠ [] then c + pace else c)) r) g m b v := by
  split_ifs
  · rw [meets_bind]
    exact alone_elapse h _ fun t h => swept_cons changes (hrest h)
  · exact swept_cons changes (hrest h)

theorem sweepEach_asks (G : Gateway) (deadline : ℕ) (accounts : List (ℕ × ℕ))
    (unreadable : List ℕ) (h : (alone r c).Inside g m b v) :
    (sweepEach G deadline accounts unreadable).Meets aloneContract
      (Swept (questions G deadline accounts unreadable c) r) g m b v := by
  induction accounts generalizing unreadable r c g m b v with
  | nil => exact ⟨rfl, c, h⟩
  | cons account rest ih =>
    obtain ⟨integrationId, userId⟩ := account
    rw [sweepEach, meets_bind, now, meets_query, ending_ok, h.view.2]
    unfold questions
    dsimp only
    by_cases hd : deadline ≤ c
    · rw [if_pos hd, if_pos hd]
      exact ⟨rfl, c, h⟩
    rw [if_neg hd, if_neg hd]
    by_cases hu : unreadable.contains integrationId
    · rw [if_pos hu, if_pos hu]
      exact ih unreadable h
    rw [if_neg hu, if_neg hu]
    refine Setting.meets_bind_reads (Setting.query_reads _ h) (fun _ _ _ _ _ => trivial)
      fun o m h hi => ?_
    refine Setting.meets_bind_reads (Setting.require_reads (by simp) o h) (fun _ _ _ _ _ => trivial)
      fun integration m h hi' => ?_
    obtain ⟨rfl, -⟩ := hi'
    have hiid : integration.id = integrationId := by simpa using List.find?_some hi.1.symm
    refine Setting.meets_bind_reads (Setting.query_reads _ h) (fun _ _ _ _ _ => trivial)
      fun o m h hw => ?_
    refine Setting.meets_bind_reads (Setting.require_reads (by simp) o h) (fun _ _ _ _ _ => trivial)
      fun user m h hw' => ?_
    obtain ⟨rfl, -⟩ := hw'
    have huid : user.id = userId := by simpa using List.find?_some hw.1.symm
    obtain ⟨rfl, rfl⟩ : integration.id = integrationId ∧ user.id = userId := ⟨hiid, huid⟩
    rw [meets_bind, meets_attempt, meets_bind, reconcileAccount]
    cases hsec : G.hasSecret integration.id with
    | false =>
      refine Meets.bind (ih (integration.id :: unreadable) h) ?_ (fun _ _ _ _ _ => trivial)
      exact fun g p m b v hk => hk
    | true =>
      refine (against_alone h G integration user).mono ?_
      rintro g' (e | ⟨changes, m'⟩) b' v' hk
      · rcases hk with ⟨text, seconds, rfl, hs, hin⟩ | ⟨text, text', rfl, hs, hin⟩ |
          ⟨text, rfl, hs, hin⟩ | he
        · rw [hs]
          exact swept_paced (ih unreadable) ((integration.id, user.id), none) id hin
        · rw [hs]
          exact swept_paced (ih unreadable) ((integration.id, user.id), none) id hin
        · rw [hs]
          exact swept_cons id (ih _ hin)
        · cases e <;> first | trivial | exact absurd trivial he
      · obtain ⟨⟨held, hs⟩, hin⟩ := hk
        rw [hs]
        exact swept_paced (ih unreadable) ((integration.id, user.id), some _) (changes + ·) hin

/-- The questions a pass of the sweep comes to. -/
def sweepQuestions (G : Gateway) (s : Store) : List ((ℕ × ℕ) × Option ℕ) :=
  questions G (s.clock + sweepWindow) ((staleAccounts G s.clock s).take sweepLimit) [] s.clock

/-- A pass that nobody else runs beside and no error ends. -/
theorem reconcileStale_asks {G : Gateway} {touched : ℕ} {asked : List (ℕ × ℕ)}
    (ended : (reconcileStale G).run Memory.empty s s = (.ok ((touched, asked), m), t, v)) :
    asked = (sweepQuestions G s).map Prod.fst ∧
      t.reconciled = stamps (sweepQuestions G s) ++ s.reconciled := by
  have h : (alone s.reconciled s.clock).Inside Memory.empty Memory.empty s s :=
    ⟨⟨rfl, rfl⟩, .refl, by simp [Memory.empty], by simp [Memory.empty], trivial⟩
  have hs : (reconcileStale G).Meets aloneContract (Swept (sweepQuestions G s) s.reconciled)
      Memory.empty Memory.empty s s := by
    rw [reconcileStale, meets_bind, now, meets_query, ending_ok, meets_bind, meets_query, ending_ok]
    exact sweepEach_asks G _ _ [] h
  obtain ⟨g, hg⟩ := run_of_meets trivial (fun _ _ => rfl) hs
  rw [ended] at hg
  obtain ⟨hasked, c, hin⟩ := hg
  exact ⟨hasked, hin.base.1⟩

/-- Whether some answer of a pass was about a user. -/
def Answered (asked : List ((ℕ × ℕ) × Option ℕ)) (userId : ℕ) : Prop :=
  ∃ question ∈ asked, question.1.2 = userId ∧ question.2.isSome = true

instance (asked : List ((ℕ × ℕ) × Option ℕ)) (userId : ℕ) : Decidable (Answered asked userId) :=
  inferInstanceAs (Decidable (∃ question ∈ asked, _))

/-- An account that was answered for sooner than another: never, or longer ago. -/
def Sooner (s : Store) (account other : ℕ × ℕ) : Prop :=
  ∃ moment ∈ askedAt s other.2, ∀ earlier ∈ askedAt s account.2, earlier < moment

instance (s : Store) (account other : ℕ × ℕ) : Decidable (Sooner s account other) :=
  inferInstanceAs (Decidable (∃ moment ∈ askedAt s other.2, _))

/-- Every account a pass asked about was answered for later than every account it left out. -/
def Rotates (G : Gateway) (s t : Store) (asked : List (ℕ × ℕ)) : Prop :=
  ∀ account ∈ asked, ∀ other ∈ staleAccounts G s.clock s, other ∉ asked → Sooner t other account

instance (G : Gateway) (s t : Store) (asked : List (ℕ × ℕ)) : Decidable (Rotates G s t asked) :=
  inferInstanceAs (Decidable (∀ account ∈ asked, _))

/-- Whoever a pass comes to ask about is answered for, unless every account left out was sooner
already, and no account is left out whose user is answered for. -/
def Fair (G : Gateway) (s : Store) : Prop :=
  ∀ other ∈ staleAccounts G s.clock s, other ∉ (sweepQuestions G s).map Prod.fst →
    ¬Answered (sweepQuestions G s) other.2 ∧ ∀ account ∈ (sweepQuestions G s).map Prod.fst,
      Answered (sweepQuestions G s) account.2 ∨ Sooner s other account

instance (G : Gateway) (s : Store) : Decidable (Fair G s) :=
  inferInstanceAs (Decidable (∀ other ∈ staleAccounts G s.clock s, _))

/-- A pass answers nobody before it started. -/
theorem questions_later {G : Gateway} {deadline : ℕ} {accounts : List (ℕ × ℕ)}
    {unreadable : List ℕ} {question : (ℕ × ℕ) × Option ℕ} {moment : ℕ}
    (hq : question ∈ questions G deadline accounts unreadable c)
    (hm : question.2 = some moment) : c ≤ moment := by
  induction accounts generalizing unreadable c with
  | nil => cases hq
  | cons account rest ih =>
    obtain ⟨integrationId, userId⟩ := account
    have later : ∀ {unreadable : List ℕ} {c' : ℕ}, c ≤ c' →
        question ∈ questions G deadline rest unreadable c' → c ≤ moment :=
      fun hc h => hc.trans (ih h)
    unfold questions at hq
    dsimp only at hq
    split_ifs at hq
    · cases hq
    · exact ih hq
    · exact ih hq
    all_goals
      split at hq <;> rcases List.mem_cons.mp hq with rfl | hq <;>
        first
          | exact later (by omega) hq
          | (cases hm; done)
          | (obtain rfl := Option.some.inj hm; exact Nat.le_add_right _ _)

theorem mem_stamps {asked : List ((ℕ × ℕ) × Option ℕ)} {user moment : ℕ} :
    (user, moment) ∈ stamps asked ↔ ∃ question ∈ asked, question.1.2 = user ∧
      question.2 = some moment := by
  simp only [stamps, List.mem_reverse, List.mem_filterMap, Option.map_eq_some_iff]
  constructor
  · rintro ⟨question, hq, moment', hm, he⟩
    obtain ⟨rfl, rfl⟩ := Prod.mk.inj he
    exact ⟨question, hq, rfl, hm⟩
  · rintro ⟨question, hq, rfl, hm⟩
    exact ⟨question, hq, moment, hm, rfl⟩

/-- Whoever a pass answered for was last answered for in the pass. -/
theorem askedAt_answered {asked : List ((ℕ × ℕ) × Option ℕ)} {userId : ℕ}
    (ht : t.reconciled = stamps asked ++ s.reconciled) (h : Answered asked userId) :
    ∃ question ∈ asked, question.2.isSome = true ∧ askedAt t userId = question.2 := by
  obtain ⟨question, hq, hu, hm⟩ := h
  obtain ⟨moment, hm⟩ := Option.isSome_iff_exists.mp hm
  rw [askedAt, ht, List.lookup_append]
  cases hl : (stamps asked).lookup userId with
  | none =>
    have := List.lookup_eq_none_iff.mp hl _ (mem_stamps.mpr ⟨question, hq, hu, hm⟩)
    simp at this
  | some last =>
    obtain ⟨l, k, heq, -⟩ := List.lookup_eq_some_iff.mp hl
    obtain ⟨question', hq', -, hm'⟩ :=
      mem_stamps.mp (heq ▸ List.mem_append_right l (List.mem_cons_self ..))
    exact ⟨question', hq', by rw [hm']; rfl, hm'.symm⟩

/-- Whoever a pass did not answer for was last answered for before. -/
theorem askedAt_unanswered {asked : List ((ℕ × ℕ) × Option ℕ)} {userId : ℕ}
    (ht : t.reconciled = stamps asked ++ s.reconciled) (h : ¬Answered asked userId) :
    askedAt t userId = askedAt s userId := by
  rw [askedAt, ht, List.lookup_append]
  have hnone : (stamps asked).lookup userId = none := by
    refine List.lookup_eq_none_iff.mpr fun p hp => ?_
    obtain ⟨question, hq, hu, hm⟩ := mem_stamps.mp hp
    have hne : userId ≠ p.1 := fun he => h ⟨question, hq, hu.trans he.symm, by rw [hm]; rfl⟩
    simpa using hne
  rw [hnone, Option.none_or, askedAt]

theorem Sooner.irrefl {account other : ℕ × ℕ} (hu : account.2 = other.2) :
    ¬Sooner s account other := by
  rintro ⟨moment, hm, hlt⟩
  exact Nat.lt_irrefl _ (hlt moment (hu ▸ hm))

theorem rotates_iff {G : Gateway} (past : ∀ stamp ∈ s.reconciled, stamp.2 < s.clock)
    (ht : t.reconciled = stamps (sweepQuestions G s) ++ s.reconciled) :
    Rotates G s t ((sweepQuestions G s).map Prod.fst) ↔ Fair G s := by
  constructor
  · intro h other ho hleft
    have hun : ¬Answered (sweepQuestions G s) other.2 := by
      rintro ⟨question, hq, hu, -⟩
      exact Sooner.irrefl hu.symm (h question.1 (List.mem_map_of_mem hq) other ho hleft)
    refine ⟨hun, fun account ha => ?_⟩
    by_cases han : Answered (sweepQuestions G s) account.2
    · exact .inl han
    · have hs := h account ha other ho hleft
      unfold Sooner at hs
      rw [askedAt_unanswered ht han, askedAt_unanswered ht hun] at hs
      exact .inr hs
  · intro h account ha other ho hleft
    obtain ⟨hun, hall⟩ := h other ho hleft
    rw [Sooner, askedAt_unanswered ht hun]
    by_cases han : Answered (sweepQuestions G s) account.2
    · obtain ⟨question, hq, hanswered, hlast⟩ := askedAt_answered ht han
      obtain ⟨moment, hm⟩ := Option.isSome_iff_exists.mp hanswered
      rw [hlast, hm]
      refine ⟨moment, rfl, fun earlier he => ?_⟩
      obtain ⟨l, k, heq, -⟩ := List.lookup_eq_some_iff.mp he
      exact (past _ (heq ▸ List.mem_append_right l (List.mem_cons_self ..))).trans_le
        (questions_later hq hm)
    · rw [askedAt_unanswered ht han]
      exact (hall account ha).resolve_left han

theorem Sooner.key_lt {account other : ℕ × ℕ} (h : Sooner s account other) (G : Gateway)
    (moment : ℕ) : askedKey G moment s account < askedKey G moment s other := by
  obtain ⟨last, hlast, hall⟩ := h
  unfold askedKey
  rw [Prod.Lex.toLex_lt_toLex, show askedAt s other.2 = some last from hlast]
  cases he : askedAt s account.2 with
  | none => exact .inl Nat.zero_lt_one
  | some earlier =>
    exact .inr ⟨rfl, Prod.Lex.toLex_lt_toLex.mpr (.inl (hall earlier he))⟩

/-- The next pass reads whoever was answered for sooner first. -/
theorem Sooner.precedes {account other : ℕ × ℕ} (h : Sooner s account other) {G : Gateway}
    {moment : ℕ} (ha : account ∈ staleAccounts G moment s) (ho : other ∈ staleAccounts G moment s) :
    (staleAccounts G moment s).idxOf account < (staleAccounts G moment s).idxOf other := by
  have hlt := h.key_lt G moment
  have : Std.Total (fun a b : ℕ × ℕ => askedKey G moment s a ≤ askedKey G moment s b) :=
    ⟨fun _ _ => le_total _ _⟩
  have : IsTrans (ℕ × ℕ) (fun a b => askedKey G moment s a ≤ askedKey G moment s b) :=
    ⟨fun _ _ _ => le_trans⟩
  have hsorted : (staleAccounts G moment s).Pairwise
      (fun a b => askedKey G moment s a ≤ askedKey G moment s b) := List.pairwise_insertionSort _ _
  by_contra hle
  rcases (Nat.not_lt.mp hle).eq_or_lt with heq | hidx
  · have hsame : other = account := by
      rw [← List.getElem_idxOf (List.idxOf_lt_length_of_mem ho),
        ← List.getElem_idxOf (List.idxOf_lt_length_of_mem ha)]
      simp only [heq]
    rw [hsame] at hlt
    exact lt_irrefl _ hlt
  · have hle := List.pairwise_iff_getElem.mp hsorted _ _ (List.idxOf_lt_length_of_mem ho)
      (List.idxOf_lt_length_of_mem ha) hidx
    rw [List.getElem_idxOf, List.getElem_idxOf] at hle
    exact absurd hlt (not_lt.mpr hle)

theorem questions_mem {G : Gateway} {deadline : ℕ} {accounts : List (ℕ × ℕ)}
    {unreadable : List ℕ} {question : (ℕ × ℕ) × Option ℕ}
    (hq : question ∈ questions G deadline accounts unreadable c) : question.1 ∈ accounts := by
  induction accounts generalizing unreadable c with
  | nil => cases hq
  | cons account rest ih =>
    obtain ⟨integrationId, userId⟩ := account
    unfold questions at hq
    dsimp only at hq
    split_ifs at hq
    · cases hq
    · exact List.mem_cons_of_mem _ (ih hq)
    · exact List.mem_cons_of_mem _ (ih hq)
    all_goals
      split at hq <;> rcases List.mem_cons.mp hq with rfl | hq <;>
        first
          | exact List.mem_cons_self ..
          | exact List.mem_cons_of_mem _ (ih hq)

/-- Nobody was last answered for longer ago than before. -/
def Grown (s t : Store) : Prop :=
  ∀ userId, ∀ moment ∈ askedAt s userId, ∃ later ∈ askedAt t userId, moment ≤ later

theorem Grown.refl (s : Store) : Grown s s := fun _ moment hm => ⟨moment, hm, le_rfl⟩

theorem Grown.trans {u : Store} (h : Grown s t) (h' : Grown t u) : Grown s u := by
  intro userId moment hm
  obtain ⟨later, hl, hle⟩ := h userId moment hm
  obtain ⟨last, hlast, hle'⟩ := h' userId later hl
  exact ⟨last, hlast, hle.trans hle'⟩

/-- An account stays behind one that nobody answers for. -/
theorem Sooner.grown {account other : ℕ × ℕ} (h : Sooner s other account) (hg : Grown s t)
    (hsame : askedAt t other.2 = askedAt s other.2) : Sooner t other account := by
  obtain ⟨moment, hm, hlt⟩ := h
  obtain ⟨later, hl, hle⟩ := hg _ moment hm
  exact ⟨later, hl, fun earlier he => (hlt earlier (hsame ▸ he)).trans_le hle⟩

/-- Whoever was answered for sooner is within the limit of the sweep where the other one is. -/
theorem Sooner.within {account other : ℕ × ℕ} (h : Sooner s other account) {G : Gateway}
    {moment : ℕ} (ho : other ∈ staleAccounts G moment s)
    (hin : account ∈ (staleAccounts G moment s).take sweepLimit) :
    other ∈ (staleAccounts G moment s).take sweepLimit := by
  have hmem := List.mem_of_mem_take hin
  rw [List.mem_take_iff_idxOf_lt hmem] at hin
  exact (List.mem_take_iff_idxOf_lt ho).mpr ((h.precedes ho hmem).trans hin)

/-- A pass of the sweep that nobody else runs beside and no error ends. Whoever was answered for
when it starts was answered for before. -/
structure SweepPass where
  gateway : Gateway
  before : Store
  after : Store
  asked : List (ℕ × ℕ)
  ran : ∃ touched m v,
    (reconcileStale gateway).run Memory.empty before before = (.ok ((touched, asked), m), after, v)
  past : ∀ stamp ∈ before.reconciled, stamp.2 < before.clock

namespace SweepPass
variable {p q : SweepPass} {passes : List SweepPass}

/-- The accounts a pass finds overdue or just closed, in the order it reads them. -/
def overdue (p : SweepPass) : List (ℕ × ℕ) := staleAccounts p.gateway p.before.clock p.before

/-- The accounts within the limit of a pass. -/
def read (p : SweepPass) : List (ℕ × ℕ) := p.overdue.take sweepLimit

theorem asked_eq (p : SweepPass) : p.asked = (sweepQuestions p.gateway p.before).map Prod.fst ∧
    p.after.reconciled = stamps (sweepQuestions p.gateway p.before) ++ p.before.reconciled := by
  obtain ⟨touched, m, v, hrun⟩ := p.ran
  exact reconcileStale_asks hrun

theorem rotates_iff (p : SweepPass) :
    Rotates p.gateway p.before p.after p.asked ↔ Fair p.gateway p.before := by
  rw [p.asked_eq.1]
  exact FastKit.rotates_iff p.past p.asked_eq.2

theorem read_of_asked {account : ℕ × ℕ} (h : account ∈ p.asked) : account ∈ p.read := by
  rw [p.asked_eq.1] at h
  obtain ⟨question, hq, rfl⟩ := List.mem_map.mp h
  exact questions_mem hq

/-- A pass takes no answer back. -/
theorem grown (p : SweepPass) : Grown p.before p.after := by
  intro userId moment hm
  by_cases h : Answered (sweepQuestions p.gateway p.before) userId
  · obtain ⟨question, hq, hanswered, hlast⟩ := askedAt_answered p.asked_eq.2 h
    obtain ⟨later, hl⟩ := Option.isSome_iff_exists.mp hanswered
    obtain ⟨l, k, heq, -⟩ := List.lookup_eq_some_iff.mp hm
    have hpast := p.past _ (heq ▸ List.mem_append_right l (List.mem_cons_self ..))
    exact ⟨later, hlast.trans hl, hpast.le.trans (questions_later hq hl)⟩
  · exact ⟨moment, (askedAt_unanswered p.asked_eq.2 h).trans hm, le_rfl⟩

/-- One pass comes after another, and whatever went on in between took no answer back. -/
def Then (p q : SweepPass) : Prop := Grown p.after q.before

instance : Trans Then Then Then where
  trans h h' := (h.trans (grown _)).trans h'

/-- Whom a pass asked about comes behind whom it left out, in the order a later pass reads and
so within its limit, as long as nobody answers for the one left out. -/
def PutsBehind (p : SweepPass) (G : Gateway) (s : Store) : Prop :=
  ∀ account ∈ p.asked, ∀ other ∈ p.overdue, other ∉ p.asked →
    askedAt s other.2 = askedAt p.after other.2 → other ∈ staleAccounts G s.clock s →
    (account ∈ staleAccounts G s.clock s → (staleAccounts G s.clock s).idxOf other <
      (staleAccounts G s.clock s).idxOf account) ∧
    (account ∈ (staleAccounts G s.clock s).take sweepLimit →
      other ∈ (staleAccounts G s.clock s).take sweepLimit)

theorem putsBehind (h : Fair p.gateway p.before) {G : Gateway} {s : Store}
    (hgrown : Grown p.after s) : p.PutsBehind G s := by
  intro account ha other ho hleft hsame hstale
  have hs : Sooner s other account := (p.rotates_iff.mpr h account ha other ho hleft).grown hgrown hsame
  exact ⟨fun hin => hs.precedes hstale hin, hs.within hstale⟩

/-- An account is kept out of a pass: it is overdue, and beyond the limit. -/
def KeepsOut (p : SweepPass) (other : ℕ × ℕ) : Prop := other ∈ p.overdue ∧ other ∉ p.read

theorem KeepsOut.left {other : ℕ × ℕ} (h : p.KeepsOut other) : other ∉ p.asked :=
  fun hasked => h.2 (read_of_asked hasked)

/-- Of two passes that keep an account out, the later one asks about nobody the earlier one
asked about. -/
theorem KeepsOut.apart {other account : ℕ × ℕ} (hp : p.KeepsOut other) (hq : q.KeepsOut other)
    (h : Fair p.gateway p.before) (hthen : p.Then q)
    (hsame : askedAt q.before other.2 = askedAt p.after other.2) (ha : account ∈ p.asked) :
    account ∉ q.asked := fun ha' =>
  hq.2 ((putsBehind h hthen account ha other hp.1 hp.left hsame hq.1).2 (read_of_asked ha'))

/-- Nobody a pass keeps out is answered for in it. -/
theorem KeepsOut.unanswered {other : ℕ × ℕ} (hp : p.KeepsOut other)
    (h : Fair p.gateway p.before) : askedAt p.after other.2 = askedAt p.before other.2 :=
  askedAt_unanswered p.asked_eq.2 (h other hp.1 (p.asked_eq.1 ▸ hp.left)).1

end SweepPass

open SweepPass in
/-- In a run of the sweep a pass rotates exactly where it is fair. Where every pass is, whom one
asked about comes behind whom it left out in the order of every later one, and nobody is kept out
of more passes that ask about somebody than there are accounts. -/
theorem sweeps_rotate (passes : List SweepPass) (run : passes.IsChain Then) :
    (∀ p ∈ passes, Rotates p.gateway p.before p.after p.asked ↔ Fair p.gateway p.before) ∧
    ((∀ p ∈ passes, Fair p.gateway p.before) →
      (∀ p ∈ passes, ∀ G s, Grown p.after s → p.PutsBehind G s) ∧
      ∀ (accounts : Finset (ℕ × ℕ)) (other : ℕ × ℕ), (∀ p ∈ passes, p.KeepsOut other) →
        (∀ p ∈ passes, p.asked ≠ [] ∧ ∀ account ∈ p.asked, account ∈ accounts) →
        (∀ p ∈ passes, ∀ q ∈ passes, askedAt p.before other.2 = askedAt q.before other.2) →
        passes.length ≤ accounts.card) := by
  refine ⟨fun p _ => p.rotates_iff, fun hfair => ⟨fun p hp _ _ => putsBehind (hfair p hp), ?_⟩⟩
  intro accounts other hout hasks hsame
  have hhead : ∀ p ∈ passes, p.asked.headI ∈ p.asked := fun p hp => by
    obtain ⟨account, rest, heq⟩ := List.exists_cons_of_ne_nil (hasks p hp).1
    simp [heq]
  have hapart : (passes.map (·.asked.headI)).Nodup := by
    refine List.pairwise_map.mpr (run.pairwise.imp_of_mem fun {p q} hp hq hthen heq => ?_)
    have hkeeps := (hout p hp).unanswered (hfair p hp)
    exact (hout p hp).apart (hout q hq) (hfair p hp) hthen
      ((hsame q hq p hp).trans hkeeps.symm) (hhead p hp) (heq ▸ hhead q hq)
  rw [← List.length_map (f := (·.asked.headI)), ← List.toFinset_card_of_nodup hapart]
  refine Finset.card_le_card fun account ha => ?_
  obtain ⟨p, hp, rfl⟩ := List.mem_map.mp (List.mem_toFinset.mp ha)
  exact (hasks p hp).2 _ (hhead p hp)

namespace Shop

/-- A subscription of the basic plan whose period ran out a while ago. -/
def overdue (id userId since : ℕ) : Subscription where
  id := id
  tenantId := none
  userId := userId
  planId := 1
  integrationId := some 5
  externalProductId := none
  externalId := none
  status := .active
  benefitStatus := .active
  environment := none
  startedAt := none
  currentPeriodStartedAt := none
  currentPeriodEndsAt := none
  accessUntil := some (opening - since)
  trialEndsAt := none
  graceUntil := none
  cancelAtPeriodEnd := false
  canceledAt := none
  expiredAt := none
  statedAt := none
  provider := none

/-- A store of two accounts the sweep asks about, the first one of which is longer overdue. -/
def lapsing : Store :=
  { new (catalog []) with
    subscriptions := ⟨[overdue 0 1 2, overdue 1 2 1], 2, by decide, by decide⟩ }

/-- A gateway that takes the window of the sweep over the first account and says of it what it
says. -/
def slow (said : Answer) : Gateway where
  answer := fun _ userId _ => if userId = 1 then (sweepWindow, said) else (0, .held [])
  hasSecret := fun _ => true
  queryable := fun _ => true
  eventStated := fun _ => false

def sweepEnds (G : Gateway) (s : Store) : Bool :=
  match (reconcileStale G).run Memory.empty s s with
  | (.ok _, _) => true
  | (.error _, _) => false

def sweepPass (G : Gateway) (s : Store) (ended : sweepEnds G s = true)
    (past : ∀ stamp ∈ s.reconciled, stamp.2 < s.clock) : SweepPass :=
  match hran : (reconcileStale G).run Memory.empty s s with
  | (.ok ((touched, asked), m), t, v) => ⟨G, s, t, asked, ⟨touched, m, v, hran⟩, past⟩
  | (.error _, _) => absurd ended (by simp [sweepEnds, hran])

theorem sweepPass_before (G : Gateway) (s : Store) (ended past) :
    (sweepPass G s ended past).before = s := by
  unfold sweepPass
  split
  · rfl
  · rename_i hran
    simp [sweepEnds, hran] at ended

/-- A pass that takes the window over the first account and takes its answer in, and the pass
ten minutes later. -/
def firstPass : SweepPass := sweepPass (slow (.held [])) lapsing (by decide +kernel) (by decide +kernel)

def nextPass : SweepPass :=
  sweepPass (slow (.held []))
    { firstPass.after with clock := firstPass.after.clock + 600 * Calendar.second }
    (by decide +kernel) (by decide +kernel)

/-- A pass the gateway is silent in over the whole window. -/
def silentPass : SweepPass :=
  sweepPass (slow (.silent "timeout")) lapsing (by decide +kernel) (by decide +kernel)

end Shop

/-- An account answered for over the whole window goes behind the one it kept waiting. -/
theorem sweeps_rotate_answered : Shop.firstPass.asked = [(5, 1)] ∧
    Shop.firstPass.PutsBehind Shop.nextPass.gateway Shop.nextPass.before ∧
    Shop.nextPass.overdue = [(5, 2), (5, 1)] := by
  have hthen : Grown Shop.firstPass.after Shop.nextPass.before := by
    rw [Shop.nextPass, Shop.sweepPass_before]
    exact fun _ moment hm => ⟨moment, hm, le_rfl⟩
  have hrotates := sweeps_rotate [Shop.firstPass, Shop.nextPass] (.cons_cons hthen (.singleton _))
  have hfair : ∀ p ∈ [Shop.firstPass, Shop.nextPass], Fair p.gateway p.before := by
    decide +kernel
  refine ⟨by decide +kernel, ?_, by decide +kernel⟩
  exact (hrotates.2 hfair).1 _ (List.mem_cons_self ..) _ _ hthen

/-- An account the gateway is silent about over the whole window stays first, and the next pass
asks about nobody else either. -/
theorem sweep_silent_first :
    ¬∀ p : SweepPass, Rotates p.gateway p.before p.after p.asked :=
  fun h => absurd (h Shop.silentPass) (by decide +kernel)

end FastKit
