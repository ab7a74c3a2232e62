import FastKit.Runs
import FastKit.Transaction.Steps

/-! # What a due pass pays

A due pass lists the benefits that are due and loads each when its turn comes. As long as
no other session moves a benefit a pass has listed and not loaded, or leaves it one the pass
makes nothing up for, the pass opens grants only of active benefits and of slots not later
than its moment, passes over what was moved, and never stops at a benefit with no date.
-/

namespace FastKit
open Transaction Transaction.Program

def StillDue (moment id : ℕ) (s : Store) : Prop :=
  ∃ b ∈ s.benefits.get id, b.status = .active ∧ ∃ next ∈ b.nextGrantAt, next ≤ moment

instance (moment id : ℕ) (s : Store) : Decidable (StillDue moment id s) :=
  decidable_of_iff ((s.benefits.get id).any
    (fun b => b.status == .active && b.nextGrantAt.any (· ≤ moment)) = true) (by
      simp [StillDue, Option.any_eq_true])

/-- What a pass reads of a benefit: whether it runs, when it is due, how often it comes back, and
what becomes of the slots it missed. -/
def schedule (id : ℕ) (s : Store) :
    Option (BenefitStatus × Option ℕ × BenefitCadence × MissedCyclePolicy) :=
  (s.benefits.get id).map (fun b => (b.status, b.nextGrantAt, b.cadence, b.missedCyclePolicy))

/-- The benefit is due, and missed a slot under a policy that makes up for none. -/
def LeftBehind (moment id : ℕ) (s : Store) : Prop :=
  ∃ b ∈ s.benefits.get id, b.status = .active ∧ b.missedCyclePolicy = .skip ∧
    ∃ every ∈ b.cadence.interval, ∃ next ∈ b.nextGrantAt, addInterval next every ≤ moment

instance (moment id : ℕ) (s : Store) : Decidable (LeftBehind moment id s) :=
  decidable_of_iff ((s.benefits.get id).any (fun b => b.status == .active &&
    b.missedCyclePolicy == .skip && b.cadence.interval.any (fun every =>
      b.nextGrantAt.any (fun next => addInterval next every ≤ moment))) = true) (by
        simp [LeftBehind, Option.any_eq_true, and_assoc])

/-- A benefit is left as it was for a pass at the moment, or left behind. -/
def Tolerated (moment id : ℕ) (s t : Store) : Prop :=
  schedule id t = schedule id s ∨ LeftBehind moment id t

instance (moment id : ℕ) (s t : Store) : Decidable (Tolerated moment id s t) :=
  inferInstanceAs (Decidable (_ ∨ _))

/-- The moment and the benefits still listed of a pass a session is in. -/
def listedBy (q : Sessions) (i : ℕ) : Option (ℕ × List ℕ) :=
  (q.sessions[i]?.bind Outcome.memory?).bind Memory.listed

/-- The turn of a session leaves what the other passes listed. -/
def LeavesListed (q : Sessions) (i : ℕ) (r : Sessions) : Prop :=
  ∀ j < q.sessions.length, j ≠ i → ∀ pass ∈ listedBy q j, ∀ id ∈ pass.2,
    Tolerated pass.1 id q.store r.store

instance (q : Sessions) (i : ℕ) (r : Sessions) : Decidable (LeavesListed q i r) := by
  unfold LeavesListed
  infer_instance

/-- Another session moved a benefit after the session began. -/
def MovedSince (trace : List (Turn Store)) (i id : ℕ) : Prop :=
  ∃ past turn rest, trace = past ++ turn :: rest ∧ (∃ first ∈ past, first.who = i) ∧
    turn.who ≠ i ∧ schedule id turn.after ≠ schedule id turn.before

theorem still_dated (next : Option ℕ) :
    Still (fun b : SubscriptionBenefit => { b with nextGrantAt := next }) := fun _ => ⟨rfl, rfl⟩

/-- The store with another date of a benefit. -/
def dated (id : ℕ) (next : Option ℕ) (s : Store) : Store := { s with
  benefits := s.benefits.modify (·.id == id) (fun b => { b with nextGrantAt := next })
    (still_dated next) }

/-- A pass at the moment that comes to the benefit with nothing loaded moves nothing but its date,
and goes on with the rest. -/
def PassedOver (moment id : ℕ) (s : Store) : Prop :=
  ∀ (rest : List ℕ) (m : Memory) (base : Store), m.benefits = [] → m.subscriptions = [] →
    ∃ m' next, m'.listed = some (moment, rest) ∧ m'.benefits = [] ∧ m'.subscriptions = [] ∧
      m'.purchases = m.purchases ∧
      processEach moment (id :: rest) m base s = .pause m' (dated id next s) (fun _ => true)
        (fun t => processEach moment rest m' t t)

/-- The moment of a pass: the clock it starts at, which it goes on with. -/
def passMoment (listed : Option (ℕ × List ℕ)) (s : Store) : ℕ := (listed.map Prod.fst).getD s.clock

/-- A grant of a slot not later than the moment, of a benefit active in the store. -/
def DueGrant (moment : ℕ) (s : Store) (g : BenefitGrant) : Prop :=
  g.scheduledAt ≤ moment ∧ ∃ b ∈ s.benefits, b.id = g.subscriptionBenefitId ∧ b.status = .active

/-- A grant a pass opens: a due one, of a benefit it listed that is not left behind. -/
def Pays (listed : Option (ℕ × List ℕ)) (s : Store) (g : BenefitGrant) : Prop :=
  DueGrant (passMoment listed s) s g ∧ ¬LeftBehind (passMoment listed s) g.subscriptionBenefitId s ∧
    ∀ pass ∈ listed, g.subscriptionBenefitId ∈ pass.2

/-- What a pass still lists after a segment was listed and is as the segment found it. -/
def Lists (listed : Option (ℕ × List ℕ)) (s : Store) (ids : List ℕ) (t : Store) : Prop :=
  ∀ id ∈ ids, (∀ pass ∈ listed, id ∈ pass.2) ∧
    (listed = none → StillDue (passMoment listed s) id s) ∧
    (StillDue (passMoment listed s) id s → schedule id t = schedule id s)

/-- What a due pass relies on and promises, by what it lists as a segment starts. -/
def passContract : Contract Memory Memory Store where
  rely := fun g s t => Path .any s t ∧ ∀ pass ∈ g.listed, ∀ id ∈ pass.2, Tolerated pass.1 id s t
  guar := fun g s m t => Path .any s t ∧
    (∀ r ∈ t.grants, s.grants.Lacks r → Pays g.listed s r) ∧
    ∃ ids, m.listed = some (passMoment g.listed s, ids) ∧ Lists g.listed s ids t
  shows := fun g m => g = m ∧ m.benefits = []
  prompt := True

/-- What a segment of a pass may write that began with `listed` and has `rest` still listed. -/
def passScope (listed : Option (ℕ × List ℕ)) (rest : List ℕ) (s : Store) : Scope where
  grant := Pays listed s
  benefit := fun b b' => b.id ∈ rest → b' = b
  mark := fun _ _ => True
  deliver := fun _ => True
  event := fun _ _ => True
  stamp := fun _ _ => True
  edit := False
  tick := False

variable {W : Scope} {s t : Store} {moment : ℕ} {rest : List ℕ} {listed : Option (ℕ × List ℕ)}

/-- A grant that a path opened is one its scope allows. -/
theorem Path.grant_new (c : Path W s t) {g : BenefitGrant} (hg : g ∈ t.grants)
    (hnew : s.grants.Lacks g) : ∃ g₁, W.grant g₁ ∧ g.name = g₁.name := by
  induction c generalizing g with
  | refl => exact absurd rfl (hnew g hg)
  | tail past c ih =>
    rcases c.grant_cases hg with ⟨g₀, hg₀, hm⟩ | ⟨-, allowed, -⟩
    · have hid : g.id = g₀.id := congrArg (·.1) hm.1
      obtain ⟨g₁, hw, hn⟩ := ih hg₀ (fun a ha h => hnew a ha (h.trans hid.symm))
      exact ⟨g₁, hw, hm.1.trans hn⟩
    · exact ⟨g, allowed, rfl⟩

/-- What is still listed is not written. -/
theorem listed_change {b : Store} (c : Change (passScope listed rest b) s t) {id : ℕ}
    {r : SubscriptionBenefit} (hid : id ∈ rest) (hr : s.benefits.get id = some r) :
    t.benefits.get id = some r := by
  cases c with
  | aside clock catalog benefits grants transactions userProducts purchases events reconciled =>
    rw [benefits]
    exact hr
  | schedule p f still kept within =>
    rw [Table.get_modify, hr, Option.map_some]
    split_ifs with hp
    · rw [within r (Table.mem_of_get hr) hp
        (by rw [show r.id = id from Table.id_of_get hr]; exact hid)]
    · rfl
  | snapshot inserted => exact Table.get_insert_of_get inserted hr
  | grant | mark | movement | product | purchase | settled | event | received | stamp => exact hr
  | edit catalog allowed => exact allowed.elim
  | tick duration allowed => exact allowed.elim

theorem listed_path {b : Store} (c : Path (passScope listed rest b) s t) {id : ℕ}
    {r : SubscriptionBenefit} (hid : id ∈ rest) (hr : s.benefits.get id = some r) :
    t.benefits.get id = some r := by
  induction c with
  | refl => exact hr
  | tail _ c ih => exact listed_change c hid ih

theorem StillDue.change {b : Store} (c : Change (passScope listed rest b) s t) {id : ℕ}
    (hid : id ∈ rest) (h : StillDue moment id s) : StillDue moment id t := by
  obtain ⟨r, hr, hdue⟩ := h
  exact ⟨r, listed_change c hid hr, hdue⟩

/-- Whether a benefit is due, and whether it is left behind, is read off its schedule. -/
theorem stillDue_iff {id : ℕ} : StillDue moment id s ↔
    ∃ x ∈ schedule id s, x.1 = .active ∧ ∃ next ∈ x.2.1, next ≤ moment := by
  simp [StillDue, schedule]

theorem leftBehind_iff {id : ℕ} : LeftBehind moment id s ↔
    ∃ x ∈ schedule id s, x.1 = .active ∧ x.2.2.2 = .skip ∧
      ∃ every ∈ x.2.2.1.interval, ∃ next ∈ x.2.1, addInterval next every ≤ moment := by
  simp [LeftBehind, schedule]

theorem LeftBehind.stillDue {id : ℕ} (h : LeftBehind moment id s) : StillDue moment id s := by
  obtain ⟨b, hb, hactive, -, every, -, next, hnext, hle⟩ := h
  exact ⟨b, hb, hactive, next, hnext, (Nat.le_of_lt (lt_addInterval next every)).trans hle⟩

theorem Tolerated.trans {id : ℕ} {u : Store} (h : Tolerated moment id s t) (h' : Tolerated moment id t u) :
    Tolerated moment id s u := by
  rcases h' with hsame | hbehind
  · rcases h with hsame' | hbehind
    · exact .inl (hsame.trans hsame')
    · exact .inr (leftBehind_iff.mpr (hsame ▸ leftBehind_iff.mp hbehind))
  · exact .inr hbehind

theorem Tolerated.stillDue {id : ℕ} (h : Tolerated moment id s t) (hdue : StillDue moment id s) :
    StillDue moment id t := by
  rcases h with hsame | hbehind
  · exact stillDue_iff.mpr (hsame ▸ stillDue_iff.mp hdue)
  · exact hbehind.stillDue

theorem Tolerated.leftBehind {id : ℕ} (h : Tolerated moment id s t) (hbehind : LeftBehind moment id s) :
    LeftBehind moment id t := by
  rcases h with hsame | hnow
  · exact leftBehind_iff.mpr (hsame ▸ leftBehind_iff.mp hbehind)
  · exact hnow

/-- The setting of a pass at its moment, with `rest` listed. -/
def passSetting (moment : ℕ) (rest : List ℕ) : Setting where
  contract := passContract
  scope := fun g => passScope g.listed rest
  shows := fun g s m => (passMoment g.listed s = moment ∧ (∀ pass ∈ g.listed, rest ⊆ pass.2) ∧
    (g.listed = none → ∀ id ∈ rest, StillDue moment id s)) ∧ m.listed = some (moment, rest) ∧
    m.benefits = []
  fault := fun e => e ≠ .typeError
  inv := fun _ s => ∀ id ∈ rest, StillDue moment id s
  lapses := fun _ => True
  prompt := trivial
  rely := fun h => h.1
  guar := by
    rintro g s m t ⟨⟨hmoment, hsub, hfirst⟩, hm, -⟩ c duration -
    refine ⟨c.any.tail (.tick duration trivial), fun r hr hnew => ?_, rest, by rw [hm, hmoment], ?_⟩
    · obtain ⟨r₁, ⟨⟨hle, b, hb, hid, ha⟩, hkept, hin⟩, hn⟩ := c.grant_new hr hnew
      have h1 : r.subscriptionBenefitId = r₁.subscriptionBenefitId := congrArg (·.2.1) hn
      have h2 : r.scheduledAt = r₁.scheduledAt := congrArg (·.2.2.2.2.2) hn
      exact ⟨⟨h2 ▸ hle, b, hb, by rw [hid, h1], ha⟩, h1 ▸ hkept, h1 ▸ hin⟩
    · refine fun id hid => ⟨fun pass hp => hsub pass hp hid, fun h => hmoment ▸ hfirst h id hid, ?_⟩
      rintro ⟨b, hb, -⟩
      simp only [schedule, listed_path c hid hb, show s.benefits.get id = some b from hb]
  waits := fun h => ⟨rfl, h.2.2⟩
  restart := by
    rintro g s m t u ⟨-, hm, hb⟩ -
    refine ⟨⟨by rw [hm]; rfl, ?_, fun h => by rw [hm] at h; cases h⟩, hm, hb⟩
    rw [hm]
    rintro _ ⟨⟩
    exact fun _ h => h
  rescued := fun h h' => ⟨h'.1, h.2.1, rfl⟩
  loads := fun ha _ hb h => ⟨h.1, (congrArg Agenda.due ha).trans h.2.1, hb h.2.2⟩
  plan := fun _ h => h
  faults := by
    rintro e he rfl
    cases he
  inv_change := fun c h id hid => (h id hid).change c hid
  inv_rely := fun h hr hs id hid => (hr.2 _ h.2.1 id hid).stillDue (hs id hid)
  inv_tick := fun _ _ h => h
  unedited := fun _ _ h => h
  untimed := fun _ _ h => h

theorem passSetting_works (moment : ℕ) (rest : List ℕ) : (passSetting moment rest).Works where
  agenda := fun hd _ _ hb h => ⟨h.1, hd.trans h.2.1, hb.trans h.2.2⟩
  mark := fun _ _ _ _ => trivial
  delivers := fun _ _ _ => trivial

/-- How a pass ends: not by an operation on a benefit with no date. -/
def Undisturbed {α : Type} : Memory → Except Fault (α × Memory) → Store → Store → Prop :=
  ending (fun _ _ _ _ => True) (fun _ e _ _ => e ≠ .typeError)

/-- What a due benefit delivers is a slot not later than the moment. -/
theorem resolveDueSlot_due {b : SubscriptionBenefit} {next : ℕ} (hn : b.nextGrantAt = some next)
    (hle : next ≤ moment) :
    resolveDueSlot b moment ≠ .error .typeError ∧
      ∀ slot moved, resolveDueSlot b moment = .ok (some slot, moved) → slot ≤ moment := by
  unfold resolveDueSlot
  rw [hn]
  cases b.cadence.interval with
  | none => exact ⟨by simp, fun _ _ h => by cases h⟩
  | some every =>
    dsimp only
    split_ifs
    · refine ⟨by simp, fun slot moved h => ?_⟩
      cases h
      exact hle
    · cases b.missedCyclePolicy with
      | skip => exact ⟨by simp, fun _ _ h => by cases h⟩
      | latestOnly =>
        refine ⟨by simp, fun slot moved h => ?_⟩
        cases h
        exact landing_le hle
      | catchUp =>
        refine ⟨by simp, fun slot moved h => ?_⟩
        cases h
        exact hle

/-- A benefit left behind delivers nothing. -/
theorem LeftBehind.resolve {id : ℕ} (h : LeftBehind moment id s) : ∃ b next,
    s.benefits.get id = some b ∧
      resolveDueSlot b moment = .ok (none, { b with nextGrantAt := some next }) := by
  obtain ⟨b, hb, -, hpolicy, every, hevery, next, hnext, hle⟩ := h
  refine ⟨b, addInterval (landing every next moment) every, hb, ?_⟩
  unfold resolveDueSlot
  rw [Option.mem_def.mp hnext, Option.mem_def.mp hevery]
  dsimp only
  rw [if_neg (Nat.not_lt.mpr hle), hpolicy]

/-- A due benefit that delivers nothing is left behind. -/
theorem leftBehind_of_resolve {id : ℕ} {b moved : SubscriptionBenefit} (hget : s.benefits.get id = some b)
    (hactive : b.status = .active) (h : resolveDueSlot b moment = .ok (none, moved)) :
    LeftBehind moment id s := by
  unfold resolveDueSlot at h
  cases hnext : b.nextGrantAt with
  | none =>
    rw [hnext] at h
    cases h
  | some next =>
    cases hevery : b.cadence.interval with
    | none =>
      rw [hnext, hevery] at h
      cases h
    | some every =>
      rw [hnext, hevery] at h
      dsimp only at h
      by_cases hlt : moment < addInterval next every
      · rw [if_pos hlt] at h
        cases h
      · rw [if_neg hlt] at h
        cases hpolicy : b.missedCyclePolicy with
        | skip => exact ⟨b, hget, hactive, hpolicy, every, hevery, next, hnext, Nat.le_of_not_lt hlt⟩
        | latestOnly | catchUp =>
          rw [hpolicy] at h
          cases h

theorem get_dated {i id : ℕ} {next : Option ℕ} (hne : i ≠ id) :
    (dated id next s).benefits.get i = s.benefits.get i := by
  refine (Table.get_modify (still_dated next)).trans ?_
  cases h : s.benefits.get i with
  | none => rfl
  | some b =>
    have hid : b.id = i := Table.id_of_get h
    simp [hid, hne]

/-- A session that loaded no subscription has nothing to flush. -/
theorem flush_empty {m : Memory} {b v : Store} (hm : m.subscriptions = []) :
    flush m b v = .done v (.ok ((), m.flushed)) := by
  unfold flush
  rw [remembered_bind, query_bind, hm]
  rfl

/-- A pass passes over a benefit that is left behind. -/
theorem LeftBehind.passedOver {id : ℕ} (h : LeftBehind moment id s) : PassedOver moment id s := by
  obtain ⟨b, next, hget, hresolve⟩ := h.resolve
  intro rest m base hbenefits hsubscriptions
  have hflushed : (m.setDue (some (moment, rest))).flushed.subscriptions = [] := by
    simp [Memory.flushed, Memory.setDue, hsubscriptions]
  have hflush : flush (m.setDue (some (moment, rest))) base (dated id (some next) s) =
      .done (dated id (some next) s) (.ok ((), (m.setDue (some (moment, rest))).flushed)) :=
    flush_empty hsubscriptions
  refine ⟨(m.setDue (some (moment, rest))).flushed, some next, rfl, hbenefits, hflushed, rfl, ?_⟩
  have hbenefit : benefitOf id (m.setDue (some (moment, rest))) base s =
      .done s (.ok (b, m.setDue (some (moment, rest)))) := by
    unfold benefitOf
    rw [remembered_bind]
    simp only [Memory.setDue, hbenefits, List.find?_nil]
    rw [query_bind, hget]
    rfl
  have hlists : (remember (Memory.setDue (some (moment, rest))) : Db Unit) m base s =
      .done s (.ok ((), m.setDue (some (moment, rest)))) := rfl
  have hdated : (writeBenefits (·.id == id) (fun b => { b with nextGrantAt := some next })
      (still_dated (some next)) : Db Unit) (m.setDue (some (moment, rest))) base s =
      .done (dated id (some next) s) (.ok ((), m.setDue (some (moment, rest)))) := rfl
  rw [processEach, bind_ok hlists, bind_ok hbenefit, hresolve]
  dsimp only
  rw [bind_ok hdated, commit, bind_assoc, bind_ok hflush]
  rfl

/-- A pass keeps its contract from the start of a segment whose listed benefits are due. -/
theorem processEach_due {ids : List ℕ} (hnodup : ids.Nodup) {g m : Memory} {v : Store}
    (hmoment : passMoment g.listed v = moment) (hg : ∀ pass ∈ g.listed, ids ⊆ pass.2)
    (hm : m.benefits = []) (hs : m.subscriptions = []) (ho : ∀ p ∈ m.purchases, KnownPurchase p v)
    (hdue : ∀ id ∈ ids, StillDue moment id v) :
    (processEach moment ids).Meets passContract Undisturbed g m v v := by
  induction ids generalizing g m v with
  | nil => exact trivial
  | cons id rest ih =>
    obtain ⟨hnot, hnodup⟩ := List.nodup_cons.mp hnodup
    have hlists : ∀ {t : Store}, (∀ i ∈ rest, schedule i t = schedule i v) → Lists g.listed v rest t := by
      refine fun hsame i hi => ⟨fun pass hp => hg pass hp (List.mem_cons_of_mem _ hi), fun _ => ?_,
        fun _ => hsame i hi⟩
      rw [hmoment]
      exact hdue i (List.mem_cons_of_mem _ hi)
    by_cases hbehind : LeftBehind moment id v
    · -- nothing is paid, and the next segment starts with the rest
      obtain ⟨m', next, hlisted, hm', hs', ho', hpasses⟩ := hbehind.passedOver rest m v hm hs
      have hmoved : ∀ i ∈ rest, (dated id next v).benefits.get i = v.benefits.get i := fun i hi =>
        get_dated fun h => hnot (h ▸ hi)
      have hpath : Path .any v (dated id next v) :=
        .single (.schedule _ _ _ (fun _ => rfl) fun _ _ _ => trivial)
      unfold Program.Meets
      rw [hpasses]
      refine ⟨m', ⟨hpath, fun r hr hnew => absurd rfl (hnew r hr), rest, by rw [hlisted, hmoment],
        hlists fun i hi => by simp only [schedule, hmoved i hi]⟩, ⟨rfl, hm'⟩, fun _ _ => rfl, fun t ht _ => ?_⟩
      refine ih hnodup (by rw [hlisted]; rfl) ?_ hm' hs' (fun p hp => ?_) fun i hi => ?_
      · rw [hlisted]
        rintro _ ⟨⟩
        exact fun _ h => h
      · exact ((ho p (ho' ▸ hp)).path hpath).path ht.1
      · refine (ht.2 _ hlisted i hi).stillDue ?_
        obtain ⟨b, hb, hrest⟩ := hdue i (List.mem_cons_of_mem _ hi)
        exact ⟨b, (hmoved i hi).trans hb, hrest⟩
    let S := passSetting moment rest
    have h : S.Inside g (m.setDue (some (moment, rest))) v v := by
      have hrest : ∀ i ∈ rest, StillDue moment i v := fun i hi => hdue i (List.mem_cons_of_mem _ hi)
      exact ⟨hrest, .refl, by simp [Memory.setDue, hm], ho, ⟨hmoment, fun pass hp i hi =>
        hg pass hp (List.mem_cons_of_mem _ hi), fun _ => hrest⟩, rfl, hm⟩
    have herr : ∀ g e b v, S.Failed g e b →
        (Undisturbed (α := List ℕ)) g (.error e) b v := fun g e b v he => he.fault
    refine Setting.meets_bind_reads (S := S) (c := remember (Memory.setDue (some (moment, rest))))
      (R := fun _ m' => m' = m.setDue (some (moment, rest))) ⟨rfl, rfl, .refl, h, rfl, rfl⟩ herr
      fun _ m' h hm' => ?_
    obtain rfl := hm'
    refine Setting.meets_bind_reads (Setting.benefitOf_reads id h) herr fun benefit m₁ h hb => ?_
    obtain ⟨hknown, rfl, hid, hrow⟩ := hb
    -- the row loaded is the one that is due
    obtain ⟨row, hget, hactive, next, hnext, hle⟩ := hdue id (List.mem_cons_self ..)
    obtain rfl : row = benefit := Option.some.inj (hget.symm.trans (hrow hm))
    obtain ⟨hte, hslot⟩ := resolveDueSlot_due (b := row) hnext hle
    have hmoves : S.Moves row.id := fun g b r r' hr hmem => absurd (by rw [← hid, ← hr]; exact hmem) hnot
    split
    · rename_i e he
      exact fun hfault => hte (by rw [he, hfault])
    · rename_i moved hr
      exact absurd (leftBehind_of_resolve hget hactive hr) hbehind
    · rename_i slot moved hr
      have hallows : S.Allows row.id slot g v := by
        intro paid hpaid hs _ _ _
        have hrow' : row.id = id := hid
        refine ⟨?_, ?_, fun pass hp => ?_⟩
        · rw [hmoment]
          exact ⟨hs ▸ hslot slot moved hr, row, Table.mem_of_get hget, hpaid.symm, hactive⟩
        · rw [hmoment, hpaid, hrow']
          exact hbehind
        · rw [hpaid, hrow']
          exact hg pass hp (List.mem_cons_self ..)
      have hW : S.Works := passSetting_works moment rest
      refine Setting.meets_bind_fresh (Setting.runCycle_fresh hW.toLenient (hW.hands _) h hknown
        (Setting.names_cycleKey (Setting.interval_of_resolveDueSlot hr) slot) hallows hmoves) herr ?_
      intro grant g m v h _
      refine Setting.meets_bind_reads (S := S) (c := letGo) (R := fun _ m' => m'.subscriptions = [])
        ⟨rfl, rfl, .refl, h.remember {}, rfl, rfl⟩ herr fun _ m h hs => ?_
      have hrest : (processEach moment rest).Meets passContract Undisturbed g m v v :=
        ih hnodup h.shows.1.1 h.shows.1.2.1 h.shows.2.2 hs h.orders h.base
      exact hrest.bind (fun _ _ _ _ _ _ => trivial) fun _ _ _ _ h => h

/-- The ids a pass lists are of different benefits. -/
theorem nodup_dueIds (moment : ℕ) (s : Store) : (dueIds moment s).Nodup := by
  have hrows : s.benefits.rows.Pairwise (fun a b => a.id ≠ b.id) :=
    s.benefits.apart.imp fun h => h.1
  have hsorted : (((s.benefits.select (due moment s)).insertionSort
      (fun a b => a.nextGrantAt.getD 0 ≤ b.nextGrantAt.getD 0)).take dueBatch).Pairwise
      (fun a b => a.id ≠ b.id) := by
    refine List.Pairwise.sublist (List.take_sublist ..) ?_
    refine (List.perm_insertionSort _ _).symm.pairwise (hrows.sublist List.filter_sublist) ?_
    exact fun h => Ne.symm h
  exact List.pairwise_map.mpr hsorted

/-- What a pass lists is due by its moment. -/
theorem stillDue_of_mem_dueIds {id : ℕ} (h : id ∈ dueIds moment s) : StillDue moment id s := by
  obtain ⟨b, hb, rfl⟩ := List.mem_map.mp h
  have hsel := (List.mem_insertionSort _).mp (List.mem_of_mem_take hb)
  obtain ⟨hmem, hdue⟩ := Table.mem_select.mp hsel
  simp only [due, Bool.and_eq_true, beq_iff_eq] at hdue
  obtain ⟨⟨⟨⟨ha, -⟩, hn⟩, -⟩, -⟩ := hdue
  obtain ⟨next, hnext, hle⟩ := (Option.any_eq_true _ _).mp hn
  exact ⟨b, Table.get_of_mem hmem, ha, next, hnext, by simpa using hle⟩

theorem processDue_due (v : Store) :
    Call.processDue.serve.Meets passContract Undisturbed Memory.empty Memory.empty v v := by
  have h : processDue.Meets passContract Undisturbed Memory.empty Memory.empty v v := by
    simp only [processDue, now, meets_bind, meets_query, ending_ok]
    exact processEach_due (nodup_dueIds _ _) rfl (by rintro _ ⟨⟩) rfl rfl (by simp [Memory.empty])
      (fun id hid => stillDue_of_mem_dueIds hid)
  simp only [Call.serve]
  exact h.bind (fun _ _ _ _ _ _ => trivial) (fun _ _ _ _ h => h)

/-- The contract of the session of a call. -/
def contractOf : Option Call → Contract Memory Memory Store
  | some .processDue => passContract
  | _ => anyContract

def endOf : Option Call → Memory → Except Fault (Unit × Memory) → Store → Store → Prop
  | some .processDue => Undisturbed
  | _ => fun _ _ _ _ => True

theorem guar_path {c : Option Call} {g g' : Memory} (h : (contractOf c).guar g s g' t) :
    Path .any s t := by
  unfold contractOf at h
  split at h
  · exact h.1
  · exact h

/-- What a waiting session shows is its stage. -/
theorem shows_contractOf {c : Option Call} {g m : Memory} (h : (contractOf c).shows g m) :
    g = m := by
  unfold contractOf at h
  split at h
  · exact h.1
  · exact h

theorem compatible_contractOf (calls : List Call) :
    Pool.Compatible LeavesListed (fun i => contractOf calls[i]?) (fun _ _ => True)
      (fun _ _ => True) := by
  refine ⟨?_, ?_, fun _ => trivial, fun _ _ _ _ _ => trivial, fun _ _ _ _ => trivial,
    fun _ _ _ _ => trivial, ?_⟩
  · intro i g s
    unfold contractOf
    split
    · exact ⟨.refl, fun _ _ _ _ => .inl rfl⟩
    · exact Relation.ReflTransGen.refl
  · intro i g s t u
    unfold contractOf
    split
    · exact fun hst htu => ⟨hst.1.trans htu.1, fun pass hp id hid =>
        (hst.2 pass hp id hid).trans (htu.2 pass hp id hid)⟩
    · exact fun hst htu => hst.trans htu
  · rintro q r i j g' stage hok _ - hij ⟨m, hm, hs⟩ hg
    have hpath : Path .any q.store r.store := guar_path hg
    obtain rfl := shows_contractOf hs
    unfold contractOf
    split
    · refine ⟨hpath, fun pass hp id hid => ?_⟩
      -- what the session shows is what the turn of another leaves due
      have hlisted : listedBy q j = (stage j).listed := by
        rw [listedBy, hm, Option.bind_some]
      obtain ⟨o, hj, -⟩ := Option.bind_eq_some_iff.mp hm
      exact hok j (List.getElem?_eq_some_iff.mp hj).1 (Ne.symm hij) pass (hlisted ▸ hp) id hid
    · exact hpath

theorem waits_contractOf {calls : List Call} {i : ℕ} {o : Outcome Memory Store Fault (Unit × Memory)}
    (ho : (sessions calls s).sessions[i]? = some o) :
    Pool.Waits (contractOf calls[i]?) (fun _ _ => True) (endOf calls[i]?) o Memory.empty s := by
  obtain ⟨c, hc, rfl⟩ : ∃ c, calls[i]? = some c ∧ session c.serve Memory.empty s = o := by
    simpa [sessions, List.getElem?_map, Option.map_eq_some_iff] using ho
  rw [hc]
  unfold contractOf endOf
  split
  · rename_i hpass
    obtain rfl := Option.some.inj hpass
    exact ⟨⟨rfl, rfl⟩, fun t _ _ => processDue_due t⟩
  · exact session_waits c s

variable {calls : List Call} {trace : List (Turn Store)} {q r : Sessions} {i : ℕ}

/-- A turn of a pass either ends it, or is one its contract promises. -/
theorem pass_turn (run : Pool.Run LeavesListed (sessions calls s) trace q)
    (hi : calls[i]? = some .processDue) (taken : q.turn i = some r) : ∃ m, q.memory i = some m ∧
      ((∃ view result, r.sessions[i]? = some (.done view result) ∧ r.store = q.store ∧
          Undisturbed m result q.store view) ∨
        ∃ m', r.memory i = some m' ∧ passContract.guar m q.store m' r.store) := by
  obtain ⟨h, m, o, -, hm, hshows, ho, hend⟩ := run.taken (g := fun _ => Memory.empty)
    (compatible_contractOf calls) trivial (fun i o ho => waits_contractOf ho) taken
  rw [hi] at hshows hend
  obtain ⟨rfl, -⟩ := hshows
  refine ⟨h i, hm, ?_⟩
  obtain ⟨view, result, rfl, hsame, hpost⟩ | ⟨m', g', hm', hguar, rfl, -⟩ := hend
  · exact .inl ⟨view, result, ho, hsame, hpost⟩
  · exact .inr ⟨g', by rw [Pool.memory, ho]; exact hm', hguar⟩

theorem listedBy_eq {m : Memory} (h : q.memory i = some m) : listedBy q i = m.listed := by
  rw [listedBy, ← Pool.memory, h, Option.bind_some]

theorem memory_others {j : ℕ} (taken : q.turn j = some r) (hj : i ≠ j) : r.memory i = q.memory i := by
  obtain ⟨memory, view, ready, next, -, -, rfl⟩ := Pool.turn_eq_some taken
  simp only [Pool.memory, List.getElem?_set_ne (Ne.symm hj)]

/-- A benefit was moved by the last turn, or had been moved before it. -/
theorem MovedSince.last {turn : Turn Store} {id : ℕ} (h : MovedSince (trace ++ [turn]) i id) :
    MovedSince trace i id ∨ ((∃ first ∈ trace, first.who = i) ∧ turn.who ≠ i ∧
      schedule id turn.after ≠ schedule id turn.before) := by
  obtain ⟨past, moving, rest, heq, hbegan, hwho, hmoved⟩ := h
  rcases List.eq_nil_or_concat rest with rfl | ⟨rest, last, rfl⟩
  · obtain ⟨rfl, hlast⟩ := List.append_inj' heq rfl
    obtain rfl : turn = moving := List.head_eq_of_cons_eq hlast
    exact .inr ⟨hbegan, hwho, hmoved⟩
  · rw [List.concat_eq_append, ← List.cons_append, ← List.append_assoc] at heq
    exact .inl ⟨past, moving, rest, (List.append_inj' heq rfl).1, hbegan, hwho, hmoved⟩

/-- What a pass still lists is due, and left behind where another session moved it; and a session
that lists nothing took no turn. -/
structure Tended (trace : List (Turn Store)) (q : Sessions) (i : ℕ) : Prop where
  due : ∀ pass ∈ listedBy q i, ∀ id ∈ pass.2, StillDue pass.1 id q.store
  behind : ∀ pass ∈ listedBy q i, ∀ id ∈ pass.2, MovedSince trace i id → LeftBehind pass.1 id q.store
  begun : ∀ m, q.memory i = some m → m.listed = none → ∀ turn ∈ trace, turn.who ≠ i

/-- A turn of another session leaves a pass tended. -/
theorem Tended.others {j : ℕ} (h : Tended trace q i) (ok : LeavesListed q j r)
    (taken : q.turn j = some r) (hij : i ≠ j) : Tended (trace ++ [⟨j, q.store, r.store⟩]) r i := by
  have hmemory := memory_others taken hij
  have hlisted : listedBy r i = listedBy q i := congrArg (Option.bind · Memory.listed) hmemory
  have hleaves : ∀ pass ∈ listedBy q i, ∀ id ∈ pass.2, Tolerated pass.1 id q.store r.store := by
    intro pass hp
    obtain ⟨o, ho, -⟩ := Option.bind_eq_some_iff.mp (Option.bind_eq_some_iff.mp hp).choose_spec.1
    exact ok i (List.getElem?_eq_some_iff.mp ho).1 hij pass hp
  refine ⟨?_, ?_, ?_⟩
  · rw [hlisted]
    exact fun pass hp id hid => (hleaves pass hp id hid).stillDue (h.due pass hp id hid)
  · rw [hlisted]
    intro pass hp id hid hmoved
    have hleft := hleaves pass hp id hid
    rcases hmoved.last with hmoved | ⟨-, -, hmoved⟩
    · exact hleft.leftBehind (h.behind pass hp id hid hmoved)
    · exact hleft.resolve_left hmoved
  · rw [hmemory]
    intro m hm hnone turn hturn
    rcases List.mem_append.mp hturn with hturn | hturn
    · exact h.begun m hm hnone turn hturn
    · obtain rfl := List.mem_singleton.mp hturn
      exact Ne.symm hij

/-- So does a turn of its own. -/
theorem Tended.own {m m' : Memory} (h : Tended trace q i) (hm : q.memory i = some m)
    (hm' : r.memory i = some m') (hguar : passContract.guar m q.store m' r.store) :
    Tended (trace ++ [⟨i, q.store, r.store⟩]) r i := by
  obtain ⟨-, -, ids, hids, hlists⟩ := hguar
  have hlisted : listedBy r i = some (passMoment m.listed q.store, ids) := (listedBy_eq hm').trans hids
  have hkept : ∀ id ∈ ids, StillDue (passMoment m.listed q.store) id q.store ∧
      schedule id r.store = schedule id q.store := by
    intro id hid
    obtain ⟨hin, hfirst, hsame⟩ := hlists id hid
    have hdue : StillDue (passMoment m.listed q.store) id q.store := by
      cases hpass : m.listed with
      | none => exact hpass ▸ hfirst hpass
      | some pass => exact h.due pass ((listedBy_eq hm).trans hpass) id (hin pass hpass)
    exact ⟨hdue, hsame hdue⟩
  rw [Option.mem_def.symm] at hlisted
  refine ⟨?_, ?_, ?_⟩
  · intro pass hp id hid
    obtain rfl := Option.mem_unique hlisted hp
    obtain ⟨hdue, hsame⟩ := hkept id hid
    exact Tolerated.stillDue (.inl hsame) hdue
  · intro pass hp id hid hmoved
    obtain rfl := Option.mem_unique hlisted hp
    -- its own turn moves none of what it still lists, so what was moved was moved before it
    have hmoved : MovedSince trace i id := hmoved.last.resolve_right fun h => h.2.1 rfl
    obtain ⟨-, hsame⟩ := hkept id hid
    refine Tolerated.leftBehind (.inl hsame) ?_
    cases hpass : m.listed with
    | none =>
      obtain ⟨past, turn, rest, rfl, ⟨first, hfirst, hwho⟩, -⟩ := hmoved
      exact absurd hwho (h.begun m hm hpass first (List.mem_append_left _ hfirst))
    | some pass =>
      exact h.behind pass ((listedBy_eq hm).trans hpass) id ((hlists id hid).1 pass hpass) hmoved
  · intro k hk hnone
    obtain rfl := Option.some.inj (hm'.symm.trans hk)
    rw [hids] at hnone
    cases hnone

theorem run_tended (run : Pool.Run LeavesListed (sessions calls s) trace q)
    (hi : calls[i]? = some .processDue) : Tended trace q i := by
  induction run with
  | start =>
    have hempty : ∀ m, (sessions calls s).memory i = some m → m.listed = none := fun m hm => by
      obtain ⟨-, -, rfl⟩ := Pool.memory_sessions hm
      rfl
    have hnone : listedBy (sessions calls s) i = none := by
      cases hm : (sessions calls s).memory i with
      | none => rw [listedBy, ← Pool.memory, hm, Option.bind_none]
      | some m => exact (listedBy_eq hm).trans (hempty m hm)
    refine ⟨?_, ?_, by simp⟩ <;> simp [hnone]
  | @turn trace q r j past taken ok ih =>
    by_cases hij : i = j
    · subst hij
      obtain ⟨m, hm, ⟨view, result, hdone, -⟩ | ⟨m', hm', hguar⟩⟩ := pass_turn past hi taken
      · have hover : r.memory i = none := by rw [Pool.memory, hdone]; rfl
        have hnone : listedBy r i = none := by rw [listedBy, ← Pool.memory, hover, Option.bind_none]
        refine ⟨?_, ?_, ?_⟩ <;> simp [hnone, hover]
      · exact ih.own hm hm' hguar
    · exact ih.others ok taken hij

/-- In every run whose turns leave what the passes have listed as it is, or left behind, each turn of
a pass opens grants only of slots not later than the moment of the pass, of benefits that are active
and of none that another session moved since the pass began; what was moved and is still listed is
passed over; and no pass ends by an operation on a benefit with no date. -/
theorem due_pass_pays_due {calls : List Call} {s : Store} {trace : List (Turn Store)}
    {q r : Sessions} (run : Pool.Run LeavesListed (sessions calls s) trace q) {i : ℕ}
    (hi : calls[i]? = some .processDue) (taken : q.turn i = some r) :
    (∀ g ∈ r.store.grants, q.store.grants.Lacks g →
      DueGrant (passMoment (listedBy q i) q.store) q.store g ∧
        ¬MovedSince trace i g.subscriptionBenefitId) ∧
    (∀ pass ∈ listedBy q i, ∀ id ∈ pass.2, MovedSince trace i id → PassedOver pass.1 id q.store) ∧
    (∀ pass ∈ listedBy r i, pass.1 = passMoment (listedBy q i) q.store) ∧
    ∀ o, r.sessions[i]? = some o → o.result? ≠ some (.error .typeError) := by
  have htended := run_tended run hi
  have hover : ∀ pass ∈ listedBy q i, ∀ id ∈ pass.2, MovedSince trace i id →
      PassedOver pass.1 id q.store := fun pass hp id hid hmoved =>
    (htended.behind pass hp id hid hmoved).passedOver
  obtain ⟨m, hm, ⟨view, result, hdone, hsame, hpost⟩ | ⟨m', hm', hguar⟩⟩ := pass_turn run hi taken
  · have hnone : listedBy r i = none := by rw [listedBy, hdone]; rfl
    refine ⟨fun g hg hnew => absurd rfl (hnew g (hsame ▸ hg)), hover, by simp [hnone], ?_⟩
    intro o ho hres
    obtain rfl := Option.some.inj (hdone.symm.trans ho)
    obtain rfl : result = .error .typeError := Option.some.inj hres
    exact hpost rfl
  · obtain ⟨-, hgrants, ids, hids, -⟩ := hguar
    refine ⟨fun g hg hnew => ?_, hover, ?_, ?_⟩
    · obtain ⟨hdue, hkept, hin⟩ := hgrants g hg hnew
      rw [listedBy_eq hm]
      refine ⟨hdue, fun hmoved => ?_⟩
      cases hpass : m.listed with
      | none =>
        obtain ⟨past, turn, rest, rfl, ⟨first, hfirst, hwho⟩, -⟩ := hmoved
        exact htended.begun m hm hpass first (List.mem_append_left _ hfirst) hwho
      | some pass =>
        rw [hpass] at hkept
        exact hkept (htended.behind pass ((listedBy_eq hm).trans hpass) _ (hin pass hpass) hmoved)
    · rw [listedBy_eq hm, listedBy_eq hm', hids]
      rintro _ ⟨⟩
      rfl
    · intro o ho hres
      rw [Pool.memory, ho] at hm'
      cases o with
      | done view result => cases hm'
      | pause memory view ready next => cases hres

/-- The turn that pays the month after a purchase. -/
theorem due_pass_pays_month : ∃ q r : Sessions, q.turn 2 = some r ∧
    r.store.grants.rows.length = 2 ∧ ∀ g ∈ r.store.grants, q.store.grants.Lacks g →
      DueGrant (passMoment (listedBy q 2) q.store) q.store g := by
  obtain ⟨trace, q, run, hq⟩ := Pool.exists_run LeavesListed
    (sessions [.apply Shop.integration Shop.buyer [Shop.purchase] false none,
      .tick (31 * Calendar.day), .processDue] (Shop.new (Shop.catalog [Shop.credits 100])))
    (List.replicate 6 0 ++ [1])
    (fun q => (q.turn 2).any (fun r => decide (r.store.grants.rows.length = 2)) = true)
    (by decide +kernel)
  obtain ⟨r, hr, hlen⟩ := (Option.any_eq_true _ _).mp hq
  exact ⟨q, r, hr, of_decide_eq_true hlen, fun g hg hnew => ((due_pass_pays_due run rfl hr).1 g hg hnew).1⟩

/-- Two passes find two benefits due. The one that lists both pays the first while the other
pays the second, and then loads the second with its next date, a month ahead, and pays it. -/
theorem slot_paid_ahead : ¬∀ (calls : List Call) (s : Store) (trace : List (Turn Store))
    (q r : Sessions) (i : ℕ), Pool.Run (fun _ _ _ => True) (sessions calls s) trace q →
    calls[i]? = some .processDue → q.turn i = some r →
    ∀ g ∈ r.store.grants, q.store.grants.Lacks g →
      DueGrant (passMoment (listedBy q i) q.store) q.store g := by
  intro h
  obtain ⟨trace, q, run, hq⟩ := Pool.exists_run (fun _ _ _ => True)
    (sessions [.apply Shop.integration Shop.buyer [Shop.purchase] false none,
      .tick (31 * Calendar.day), .processDue, .processDue]
      (Shop.new (Shop.catalog [Shop.credits 100, Shop.credits 103])))
    (List.replicate 9 0 ++ [1, 2] ++ List.replicate 4 3 ++ List.replicate 2 2)
    (fun q => (q.turn 2).any (fun r => decide (∃ g ∈ r.store.grants, q.store.grants.Lacks g ∧
      passMoment (listedBy q 2) q.store < g.scheduledAt)) = true) (by decide +kernel)
  obtain ⟨r, hr, hahead⟩ := (Option.any_eq_true _ _).mp hq
  obtain ⟨g, hg, hnew, hlt⟩ := of_decide_eq_true hahead
  exact absurd (h _ _ trace q r 2 run rfl hr g hg hnew).1 (Nat.not_le_of_lt hlt)

end FastKit
