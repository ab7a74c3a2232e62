import FastKit.Delivery.Changes
import FastKit.Transaction.Contract

/-! # Services keep to the changes

Each function of the delivery service, whatever other sessions change while it waits,
writes nothing but the changes of a segment. A setting is what a session of the service
may be run under: the contract it is part of, and what its segments may write.
-/

namespace FastKit
open Transaction Transaction.Program

/-- Whether a policy lets a type of benefit be handed over. -/
def BenefitPolicy.allows : BenefitPolicy → BenefitType → Bool
  | .all, _ => true
  | .none, _ => false
  | .accessOnly, type => type == .access

/-- An error of the services' own: not an operation on nothing, and not what a gateway left
unanswered. -/
@[simp] def Fault.plain : Fault → Bool
  | .typeError | .silent _ | .unreadable _ => false
  | _ => true

/-- A session has nothing to write of what it loaded. -/
def Memory.Clean (m : Memory) : Prop := ∀ l ∈ m.subscriptions, l.now = l.loaded

theorem Memory.clean_flushed (m : Memory) : m.flushed.Clean := by
  intro l hl
  obtain ⟨k, -, rfl⟩ := List.mem_map.mp hl
  rfl

theorem Memory.clean_expired (m : Memory) : m.expired.Clean := fun _ hl => absurd hl List.not_mem_nil

theorem writeLoaded_clean {held : List Loaded} (h : ∀ l ∈ held, l.now = l.loaded)
    (t : Table Subscription) : writeLoaded held t = some t := by
  induction held with
  | nil => rfl
  | cons l rest ih =>
    rw [writeLoaded, if_pos (h l (List.mem_cons_self ..))]
    exact ih fun k hk => h k (List.mem_cons_of_mem _ hk)

/-- What a session that keeps to the changes runs under. The stage of its contract is what
it remembered when the segment under way started. -/
structure Setting where
  contract : Contract Memory Memory Store
  /-- What a segment that starts with a memory on a store may write. -/
  scope : Memory → Store → Scope
  /-- What a segment that starts with a memory on a store goes on remembering. -/
  shows : Memory → Store → Memory → Prop
  /-- The errors that may end the session. -/
  fault : Fault → Prop
  /-- What holds of every store a segment starts on. -/
  inv : Memory → Store → Prop
  /-- How long the time may go by between two segments of the session. -/
  lapses : ℕ → Prop
  prompt : lapses 0
  rely : ∀ {g s t}, contract.rely g s t → Path .any s t
  guar : ∀ {g s m t}, shows g s m → Path (scope g s) s t → ∀ duration, lapses duration →
    contract.guar g s m { t with clock := t.clock + duration }
  waits : ∀ {g s m}, shows g s m → contract.shows m m
  restart : ∀ {g s m t u}, shows g s m → contract.rely m t u → shows m u m
  rescued : ∀ {g s m g' s' m'}, shows g s m → shows g' s' m' → shows g' s' m.expired
  loads : ∀ {g s m m'}, m'.agenda = m.agenda → m'.plans = m.plans →
    (m.benefits = [] → m'.benefits = []) → shows g s m → shows g s m'
  plan : ∀ {g s m p}, s.catalog.plans.find? (·.id == p.id) = some p → shows g s m →
    shows g s (m.keepPlan p)
  faults : ∀ e, e.plain = true → fault e
  inv_change : ∀ {g b s t}, Change (scope g b) s t → inv g s → inv g t
  inv_rely : ∀ {g b m s t}, shows g b m → contract.rely m s t → inv g s → inv m t
  inv_tick : ∀ {g s} duration, lapses duration → inv g s →
    inv g { s with clock := s.clock + duration }
  unedited : ∀ g s, ¬(scope g s).edit
  untimed : ∀ g s, ¬(scope g s).tick

/-- What a session loads leaves the rows it keeps copies of and what it has in hand. -/
structure Loads (m m' : Memory) : Prop where
  benefits : m'.benefits = m.benefits := by rfl
  plans : m'.plans = m.plans := by rfl
  purchases : m'.purchases = m.purchases := by rfl
  agenda : m'.agenda = m.agenda := by rfl

namespace Setting
variable {α β : Type} (S : Setting)

/-- Where a segment stands: what it wrote is changes, and the copies the session keeps are
of benefits and purchases that are there. -/
structure Inside (g m : Memory) (b v : Store) : Prop where
  base : S.inv g b
  path : Path (S.scope g b) b v
  copies : ∀ c ∈ m.benefits, Known c v
  orders : ∀ c ∈ m.purchases, KnownPurchase c v
  shows : S.shows g b m

structure Failed (g : Memory) (e : Fault) (b : Store) : Prop where
  base : S.inv g b
  fault : S.fault e
  shows : ∃ m, S.shows g b m

/-- How a program that keeps to the changes ends. -/
def Kept : Memory → Except Fault (α × Memory) → Store → Store → Prop :=
  ending (fun g p b v => S.Inside g p.2 b v) (fun g e b _ => S.Failed g e b)

def Keeps (c : Db α) : Prop :=
  ∀ g m b v, S.Inside g m b v → c.Meets S.contract S.Kept g m b v

variable {S} {g m m' : Memory} {b v v' : Store}

theorem inv_path {s t : Store} (c : Path (S.scope g b) s t) (h : S.inv g s) : S.inv g t := by
  induction c with
  | refl => exact h
  | tail _ c ih => exact S.inv_change c ih

theorem Inside.view (h : S.Inside g m b v) : S.inv g v := inv_path h.path h.base

theorem Inside.fail (h : S.Inside g m b v) {e : Fault} (he : S.fault e) : S.Failed g e b :=
  ⟨h.base, he, m, h.shows⟩

theorem Inside.write (h : S.Inside g m b v) (c : Path (S.scope g b) v v') : S.Inside g m b v' :=
  ⟨h.base, h.path.trans c, fun x hx => (h.copies x hx).path c,
    fun x hx => (h.orders x hx).path c, h.shows⟩

theorem Inside.change (h : S.Inside g m b v) (c : Change (S.scope g b) v v') :
    S.Inside g m b v' := h.write (.single c)

theorem Inside.remember (h : S.Inside g m b v) (hm : Loads m m') : S.Inside g m' b v :=
  ⟨h.base, h.path, hm.benefits ▸ h.copies, hm.purchases ▸ h.orders,
    S.loads hm.agenda hm.plans (fun e => hm.benefits.trans e) h.shows⟩

/-- A flush writes subscriptions only. -/
theorem Inside.flushed (h : S.Inside g m b v) (subs : Table Subscription) :
    S.Inside g m.flushed b { v with subscriptions := subs } := by
  have c : Change (S.scope g b) v { v with subscriptions := subs } :=
    .aside rfl rfl rfl rfl rfl rfl rfl rfl rfl
  exact (h.change c).remember {}

theorem Inside.load (h : S.Inside g m b v) (row : Subscription) : S.Inside g (m.load row) b v :=
  h.remember {}

theorem Inside.keep (h : S.Inside g m b v) {row : SubscriptionBenefit} (hr : row ∈ v.benefits) :
    S.Inside g (m.keepBenefit row) b v := by
  refine ⟨h.base, h.path, fun c hc => ?_, h.orders,
    S.loads (show (m.keepBenefit row).agenda = m.agenda from rfl) rfl (fun e => ?_) h.shows⟩
  · obtain ⟨a, ha, rfl⟩ := List.mem_map.mp hc
    split_ifs
    · exact ⟨row, hr, rfl⟩
    · exact h.copies a ha
  · rw [Memory.keepBenefit, e]
    rfl

theorem Inside.catalog (h : S.Inside g m b v) : v.catalog = b.catalog :=
  Path.catalog h.path (S.unedited g b)

/-- A segment sees one moment. -/
theorem Inside.clock (h : S.Inside g m b v) : v.clock = b.clock := Path.clock h.path (S.untimed g b)

theorem Inside.keepPlan (h : S.Inside g m b v) {p : Plan}
    (hp : v.catalog.plans.find? (·.id == p.id) = some p) : S.Inside g (m.keepPlan p) b v :=
  ⟨h.base, h.path, h.copies, h.orders, S.plan (h.catalog ▸ hp) h.shows⟩

theorem Inside.keepPurchase (h : S.Inside g m b v) {p : Purchase} (hp : p ∈ v.purchases) :
    S.Inside g (m.keepPurchase p) b v := by
  refine ⟨h.base, h.path, h.copies, fun c hc => ?_,
    S.loads (show (m.keepPurchase p).agenda = m.agenda from rfl) rfl (fun e => e) h.shows⟩
  rcases List.mem_cons.mp hc with rfl | hc
  · exact ⟨c, hp, rfl⟩
  · exact h.orders c (List.mem_of_mem_filter hc)

theorem Inside.syncPurchase (h : S.Inside g m b v) (id : ℕ) {f : Purchase → Purchase}
    (hf : ∀ p, (f p).order = p.order) : S.Inside g (m.syncPurchase id f) b v := by
  refine ⟨h.base, h.path, h.copies, fun c hc => ?_,
    S.loads (show (m.syncPurchase id f).agenda = m.agenda from rfl) rfl (fun e => e) h.shows⟩
  obtain ⟨p, hp, rfl⟩ := List.mem_map.mp hc
  obtain ⟨p', hp', ho⟩ := h.orders p hp
  refine ⟨p', hp', ?_⟩
  split_ifs
  · exact ho.trans (hf p).symm
  · exact ho

/-- A segment ends, after which some time may pass, and the next one starts on what the others
left. -/
theorem Inside.restart (h : S.Inside g m b v) {duration : ℕ} (hd : S.lapses duration)
    (hr : S.contract.rely m { v with clock := v.clock + duration } v') : S.Inside m m v' v' := by
  have c : Path .any v v' := (Relation.ReflTransGen.single (Change.tick (W := .any) duration trivial)).trans (S.rely hr)
  exact ⟨S.inv_rely h.shows hr (S.inv_tick duration hd h.view), .refl,
    fun x hx => (h.copies x hx).path c, fun x hx => (h.orders x hx).path c, S.restart h.shows hr⟩

theorem Inside.publish (h : S.Inside g m b v) (hr : S.contract.rely m v v') :
    S.Inside m m v' v' :=
  h.restart S.prompt (show S.contract.rely m { v with clock := v.clock + 0 } v' from hr)

/-- The setting of a session that any error may end. -/
def loud (S : Setting) : Setting := { S with
  fault := fun _ => True
  faults := fun _ _ => trivial }

theorem Inside.loud (h : S.Inside g m b v) : S.loud.Inside g m b v :=
  ⟨h.base, h.path, h.copies, h.orders, h.shows⟩

theorem Inside.quiet (h : S.loud.Inside g m b v) : S.Inside g m b v :=
  ⟨h.base, h.path, h.copies, h.orders, h.shows⟩

theorem loud_meets {c : Db α} (hc : c.Meets S.contract S.Kept g m b v) :
    c.Meets S.loud.contract S.loud.Kept g m b v := by
  refine hc.mono ?_
  rintro g (e | ⟨a, m⟩) b v h
  · exact ⟨h.base, trivial, h.shows⟩
  · exact h.loud

theorem Keeps.loud {c : Db α} (hc : S.Keeps c) : S.loud.Keeps c := fun g m b v h =>
  loud_meets (hc g m b v h.quiet)

theorem keeps_meets {c : Db α} (hc : S.Keeps c) (h : S.Inside g m b v) :
    c.Meets S.contract S.Kept g m b v := hc g m b v h

theorem meets_bind_inside {c : Db α} {f : α → Db β}
    {post : Memory → Except Fault (β × Memory) → Store → Store → Prop}
    (hc : c.Meets S.contract S.Kept g m b v)
    (herr : ∀ g e b v, S.Failed g e b → post g (.error e) b v)
    (hf : ∀ a g m b v, S.Inside g m b v → (f a).Meets S.contract post g m b v) :
    (c >>= f).Meets S.contract post g m b v :=
  hc.bind (fun g a m b v h => hf a g m b v h) (fun g e b v h => herr g e b v h)

/-- What follows a program that keeps to the changes starts where it left the segment. -/
theorem meets_bind_keeps {c : Db α} {f : α → Db β} (hc : c.Meets S.contract S.Kept g m b v)
    (hf : ∀ a g m b v, S.Inside g m b v → (f a).Meets S.contract S.Kept g m b v) :
    (c >>= f).Meets S.contract S.Kept g m b v :=
  meets_bind_inside hc (fun _ _ _ _ h => h) hf

theorem Keeps.bind {c : Db α} {f : α → Db β} (hc : S.Keeps c) (hf : ∀ a, S.Keeps (f a)) :
    S.Keeps (c >>= f) := fun g m b v h =>
  meets_bind_keeps (hc g m b v h) (fun a g m b v h => hf a g m b v h)

theorem keeps_pure (a : α) : S.Keeps (pure a) := fun _ _ _ _ h => h

theorem keeps_query (f : Store → α) : S.Keeps (query f) := fun _ _ _ _ h => h

theorem keeps_remembered (f : Memory → α) : S.Keeps (remembered f) := fun _ _ _ _ h => h

theorem keeps_raise {e : Fault} (he : S.fault e) : S.Keeps (raise e : Db α) :=
  fun _ _ _ _ h => h.fail he

theorem keeps_execute {f : Store → Store} (hf : ∀ W v, Change W v (f v)) :
    S.Keeps (execute f) := fun g _ b v h => h.change (hf (S.scope g b) v)

theorem keeps_remember {f : Memory → Memory} (hf : ∀ m, Loads m (f m)) : S.Keeps (remember f) :=
  fun _ m _ _ h => h.remember (hf m)

theorem keeps_publish : S.Keeps publish := by
  intro g m b v h
  rw [meets_publish]
  exact ⟨m, S.guar h.shows h.path 0 S.prompt, S.waits h.shows, fun t ht => h.publish ht⟩

theorem keeps_require {e : Fault} (he : e.plain = true) (o : Option α) :
    S.Keeps (require e o) := by
  intro g m b v h
  cases o with
  | some a => exact h
  | none => exact h.fail (S.faults e he)

theorem keeps_ite {p : Prop} [Decidable p] {c d : Db α} (hc : S.Keeps c) (hd : S.Keeps d) :
    S.Keeps (if p then c else d) := by
  split_ifs
  · exact hc
  · exact hd

/-- A change of what no delivery, no purchase and no event is read from. -/
structure Beside (f : Store → Store) : Prop where
  clock : ∀ s, (f s).clock = s.clock := by intro s; rfl
  catalog : ∀ s, (f s).catalog = s.catalog := by intro s; rfl
  benefits : ∀ s, (f s).benefits = s.benefits := by intro s; rfl
  grants : ∀ s, (f s).grants = s.grants := by intro s; rfl
  transactions : ∀ s, (f s).transactions = s.transactions := by intro s; rfl
  userProducts : ∀ s, (f s).userProducts = s.userProducts := by intro s; rfl
  purchases : ∀ s, (f s).purchases = s.purchases := by intro s; rfl
  events : ∀ s, (f s).events = s.events := by intro s; rfl
  reconciled : ∀ s, (f s).reconciled = s.reconciled := by intro s; rfl

theorem Beside.change {f : Store → Store} (h : Beside f) (W : Scope) (s : Store) :
    Change W s (f s) :=
  .aside (h.clock s) (h.catalog s) (h.benefits s) (h.grants s) (h.transactions s)
    (h.userProducts s) (h.purchases s) (h.events s) (h.reconciled s)

theorem keeps_beside {f : Store → Store} (h : Beside f) : S.Keeps (execute f) :=
  keeps_execute h.change

theorem flush_keeps : S.Keeps flush := by
  refine Keeps.bind (keeps_remembered _) fun held => Keeps.bind (keeps_query _) fun t => ?_
  cases t with
  | none => exact keeps_raise (S.faults _ (by simp))
  | some t =>
    refine Keeps.bind (keeps_beside {}) fun _ => ?_
    exact keeps_remember fun _ => {}

theorem commit_keeps : S.Keeps commit := Keeps.bind flush_keeps fun _ => keeps_publish

/-- After an error a session starts over from what its segment started on. -/
theorem Inside.rescue (h : S.Inside g m b v) {g' : Memory} {e : Fault} {b' : Store}
    (he : S.Failed g' e b') : S.Inside g' m.expired b' b' := by
  obtain ⟨m', hm'⟩ := he.shows
  exact ⟨he.base, .refl, fun x hx => by simp [Memory.expired] at hx,
    fun x hx => by simp [Memory.expired] at hx, S.rescued h.shows hm'⟩

theorem Inside.expire (h : S.Inside g m b v) : S.Inside g m.expired b b :=
  h.rescue (h.fail (S.faults .keyError (by simp)))

/-- An error is caught with nothing written, by a rescue that starts over. -/
theorem meets_attempt_rollback {c : Db α} {f : Fault → Db α}
    {post : Memory → Except Fault (α × Memory) → Store → Store → Prop}
    (hc : c.Meets S.contract S.Kept g m b v) (h : S.Inside g m b v)
    (hok : ∀ a g m b v, S.Inside g m b v → post g (.ok (a, m)) b v)
    (hf : ∀ e g b, S.fault e → S.Inside g m.expired b b →
      (f e).Meets S.contract post g m.expired b b) :
    (attempt c (fun e => rollback >>= fun _ => f e)).Meets S.contract post g m b v := by
  rw [meets_attempt]
  refine hc.mono ?_
  rintro g (e | ⟨a, m⟩) b v hk
  · exact hf e g b hk.fault (h.rescue hk)
  · exact hok a g m b v hk

theorem persist_keeps : S.Keeps persist := by
  intro g m b v h
  refine meets_bind_keeps ?_ (fun _ g m b v h => keeps_publish g m b v h)
  refine meets_attempt_rollback (flush_keeps g m b v h) h (fun _ _ _ _ _ h => h) fun e g b _ h => ?_
  exact h.fail (S.faults _ (by simp))

theorem subscriptionOf_keeps (id : ℕ) : S.Keeps (subscriptionOf id) := by
  refine Keeps.bind (keeps_remembered _) fun row => ?_
  cases row with
  | some row => exact keeps_pure row
  | none =>
    refine Keeps.bind (keeps_query _) fun o => Keeps.bind (keeps_require (by simp) o) fun row => ?_
    exact Keeps.bind (keeps_remember fun _ => {}) fun _ =>
      keeps_pure row

/-- How a program ends that stays in its segment: what it wrote since `v` is changes, and
`R` holds of what it answers. -/
def Within (g : Memory) (b v : Store) (R : α → Memory → Store → Prop) :
    Memory → Except Fault (α × Memory) → Store → Store → Prop :=
  ending (fun g' p b' v' => g' = g ∧ b' = b ∧ Path (S.scope g b) v v' ∧ S.Inside g p.2 b v' ∧
      R p.1 p.2 v')
    (fun g e b _ => S.Failed g e b)

/-- How a program ends that only reads the view. -/
abbrev Reads (g : Memory) (b v : Store) (R : α → Memory → Prop) :
    Memory → Except Fault (α × Memory) → Store → Store → Prop :=
  S.Within g b v (fun a m v' => v' = v ∧ R a m)

theorem meets_bind_within {c : Db α} {f : α → Db β} {R : α → Memory → Store → Prop}
    {post : Memory → Except Fault (β × Memory) → Store → Store → Prop}
    (hc : c.Meets S.contract (S.Within g b v R) g m b v)
    (herr : ∀ g e b v, S.Failed g e b → post g (.error e) b v)
    (hf : ∀ a m v', Path (S.scope g b) v v' → S.Inside g m b v' → R a m v' →
      (f a).Meets S.contract post g m b v') :
    (c >>= f).Meets S.contract post g m b v := by
  refine hc.bind ?_ (fun g e b v h => herr g e b v h)
  rintro g a m b v ⟨rfl, rfl, hp, h, hR⟩
  exact hf a m v hp h hR

/-- After a program that only reads, the view is the one it was given. -/
theorem meets_bind_reads {c : Db α} {f : α → Db β} {R : α → Memory → Prop}
    {post : Memory → Except Fault (β × Memory) → Store → Store → Prop}
    (hc : c.Meets S.contract (S.Reads g b v R) g m b v)
    (herr : ∀ g e b v, S.Failed g e b → post g (.error e) b v)
    (hf : ∀ a m, S.Inside g m b v → R a m → (f a).Meets S.contract post g m b v) :
    (c >>= f).Meets S.contract post g m b v := by
  refine meets_bind_within hc herr ?_
  rintro a m v' - h ⟨rfl, hR⟩
  exact hf a m h hR

theorem kept_error (g : Memory) (e : Fault) (b v : Store) (h : S.Failed g e b) :
    S.Kept (α := α) g (.error e) b v := h

theorem within_error {g₀ : Memory} {b₀ v₀ : Store} {R : α → Memory → Store → Prop} (g : Memory)
    (e : Fault) (b v : Store) (h : S.Failed g e b) : S.Within g₀ b₀ v₀ R g (.error e) b v := h

theorem Within.kept {R : α → Memory → Store → Prop} {c : Db α}
    (hc : c.Meets S.contract (S.Within g b v R) g m b v) :
    c.Meets S.contract S.Kept g m b v := by
  refine hc.mono ?_
  rintro g (e | ⟨a, m⟩) b v h
  · exact h
  · obtain ⟨rfl, rfl, -, h, -⟩ := h
    exact h

theorem require_reads {e : Fault} (he : e.plain = true) (o : Option α) (h : S.Inside g m b v) :
    (require e o).Meets S.contract (S.Reads g b v fun a m' => o = some a ∧ m' = m) g m b v := by
  cases o with
  | some a => exact ⟨rfl, rfl, .refl, h, rfl, rfl, rfl⟩
  | none => exact h.fail (S.faults e he)

theorem query_reads (f : Store → α) (h : S.Inside g m b v) :
    (query f).Meets S.contract (S.Reads g b v fun a m' => a = f v ∧ m' = m) g m b v :=
  ⟨rfl, rfl, .refl, h, rfl, rfl, rfl⟩

theorem find_load {id : ℕ} {row : Subscription} (h : row.id = id) :
    (m.load row).find id = some row := by
  simp [Memory.find, Memory.load, h]

theorem subscriptionOf_reads (id : ℕ) (h : S.Inside g m b v) :
    (subscriptionOf id).Meets S.contract
      (S.Reads g b v fun row m' => m'.find id = some row ∧ (∀ r, m.find id = some r → r = row) ∧
        m'.plans = m.plans) g m b v := by
  unfold subscriptionOf
  simp only [meets_bind, meets_remembered, ending_ok]
  cases hf : m.find id with
  | some row => exact ⟨rfl, rfl, .refl, h, rfl, hf, fun r hr => by simpa using hr.symm, rfl⟩
  | none =>
    simp only [meets_bind, meets_query, ending_ok]
    cases hg : v.subscriptions.get id with
    | none => exact h.fail (S.faults _ (by simp))
    | some row =>
      exact ⟨rfl, rfl, .refl, h.load row, rfl, find_load (Table.id_of_get hg),
        by simp, rfl⟩

/-- The plan as a session has it: the one it remembers, or the catalogue's. -/
def heldPlan (m : Memory) (s : Store) (id : ℕ) : Option Plan :=
  m.plans.find? (·.id == id) <|> s.catalog.plans.find? (·.id == id)

theorem planOf_reads (subscription : Subscription) (h : S.Inside g m b v) :
    (planOf subscription).Meets S.contract
      (S.Reads g b v fun plan _ => heldPlan m v subscription.planId = some plan) g m b v := by
  unfold planOf
  simp only [meets_bind, meets_remembered, ending_ok]
  cases hf : m.plans.find? (·.id == subscription.planId) with
  | some plan =>
    exact ⟨rfl, rfl, .refl, h, rfl, by rw [heldPlan, hf]; rfl⟩
  | none =>
    simp only [meets_bind, meets_query, ending_ok]
    cases hg : v.catalog.plans.find? (·.id == subscription.planId) with
    | none => exact h.fail (S.faults _ (by simp))
    | some plan =>
      have hid : plan.id = subscription.planId := by simpa using List.find?_some hg
      exact ⟨rfl, rfl, .refl, h.keepPlan (by rw [hid, hg]), rfl, by rw [heldPlan, hf, hg]; rfl⟩

theorem policyAllows_reads (benefit : SubscriptionBenefit) (h : S.Inside g m b v) :
    (policyAllows benefit).Meets S.contract (S.Reads g b v fun allowed _ =>
      ∃ row plan, (∀ r, m.find benefit.subscriptionId = some r → r = row) ∧
        heldPlan m v row.planId = some plan ∧
        allowed = (benefitPolicyOf row plan).allows benefit.benefitType) g m b v := by
  refine meets_bind_reads (subscriptionOf_reads _ h) within_error fun row m₁ h hr => ?_
  refine meets_bind_reads (planOf_reads _ h) within_error fun plan m₂ h hp => ?_
  obtain ⟨-, hsame, hplans⟩ := hr
  have hplan : heldPlan m v row.planId = some plan := by rw [← hp, heldPlan, heldPlan, hplans]
  cases hpol : benefitPolicyOf row plan <;>
    exact ⟨rfl, rfl, .refl, h, rfl, row, plan, hsame, hplan, by rw [hpol]; rfl⟩

theorem stillOwed_reads (benefit : SubscriptionBenefit) (h : S.Inside g m b v) :
    (stillOwed benefit).Meets S.contract (S.Reads g b v fun owed m' =>
      ((benefit.status ≠ .active ∧ owed = false) ∨ (benefit.status = .active ∧ ∃ row,
        m'.find benefit.subscriptionId = some row ∧
        (∀ r, m.find benefit.subscriptionId = some r → r = row) ∧
        owed = row.isEligibleForBenefits)) ∧ m'.plans = m.plans) g m b v := by
  unfold stillOwed
  split_ifs with hs
  · exact ⟨rfl, rfl, .refl, h, rfl, .inl ⟨hs, rfl⟩, rfl⟩
  · refine meets_bind_reads (subscriptionOf_reads _ h) within_error fun row m h hr => ?_
    exact ⟨rfl, rfl, .refl, h, rfl, .inr ⟨not_not.mp hs, row, hr.1, hr.2.1, rfl⟩, hr.2.2⟩

/-- The reservation of a benefit is for whoever the session has its subscription belong to. -/
theorem userBenefitKeyOf_reads (benefit : SubscriptionBenefit) (h : S.Inside g m b v) :
    (userBenefitKeyOf benefit).Meets S.contract (S.Reads g b v fun key m' =>
      ∀ k, key = some k → benefit.cadence = .oncePerUser ∧ ∃ row : Subscription,
        m'.find benefit.subscriptionId = some row ∧ k = (row.userId, benefit.benefitId))
      g m b v := by
  unfold userBenefitKeyOf
  split_ifs with hc
  · refine meets_bind_reads (subscriptionOf_reads _ h) within_error fun row m h hr => ?_
    refine ⟨rfl, rfl, .refl, h, rfl, ?_⟩
    rintro k hk
    exact ⟨hc, row, hr.1, (Option.some.inj hk).symm⟩
  · exact ⟨rfl, rfl, .refl, h, rfl, by simp⟩

theorem alreadyHeldByUser_reads (benefit : SubscriptionBenefit) {row : Subscription}
    (hr : m.find benefit.subscriptionId = some row) (h : S.Inside g m b v) :
    (alreadyHeldByUser benefit (row.userId, benefit.benefitId)).Meets S.contract
      (S.Reads g b v fun held _ => held = alreadyHeld row.userId benefit.benefitId
        (row.userId, benefit.benefitId) v) g m b v := by
  refine meets_bind_reads (subscriptionOf_reads _ h) within_error fun found m h hf => ?_
  obtain rfl : row = found := hf.2.1 row hr
  exact ⟨rfl, rfl, .refl, h, rfl, rfl⟩

theorem grantOf_reads (id : ℕ) (h : S.Inside g m b v) :
    (grantOf id).Meets S.contract (S.Reads g b v fun row m' => row ∈ v.grants ∧ row.id = id ∧
      m' = m) g m b v := by
  refine meets_bind_reads (query_reads _ h) within_error fun o m₁ h ho => ?_
  refine (require_reads (by simp) o h).mono ?_
  rintro g (e | ⟨a, m⟩) b v hk
  · exact hk
  · obtain ⟨rfl, rfl, hp, h, rfl, rfl, rfl⟩ := hk
    exact ⟨rfl, rfl, hp, h, rfl, Table.mem_of_get ho.1.symm, Table.id_of_get ho.1.symm, ho.2⟩

theorem holdSubscription_reads (id : ℕ) (h : S.Inside g m b v) :
    (holdSubscription id).Meets S.contract (S.Reads g b v fun row m' =>
      v.subscriptions.get id = some row ∧ m' = m.load row) g m b v := by
  refine meets_bind_reads (query_reads _ h) within_error fun o m₁ h ho => ?_
  refine meets_bind_reads (require_reads (by simp) o h) within_error fun row m₂ h hr => ?_
  obtain ⟨rfl, rfl⟩ := hr
  obtain ⟨ho, rfl⟩ := ho
  exact ⟨rfl, rfl, .refl, h.load row, rfl, ho.symm, rfl⟩

theorem refreshBenefit_reads (id : ℕ) (h : S.Inside g m b v) :
    (refreshBenefit id).Meets S.contract (S.Reads g b v fun row m' =>
      row ∈ v.benefits ∧ row.id = id ∧ m' = m.keepBenefit row) g m b v := by
  refine meets_bind_reads (query_reads _ h) within_error fun o m₁ h ho => ?_
  refine meets_bind_reads (require_reads (by simp) o h) within_error fun row m₂ h hr => ?_
  obtain ⟨rfl, rfl⟩ := hr
  obtain ⟨ho, rfl⟩ := ho
  have hrow : row ∈ v.benefits := Table.mem_of_get ho.symm
  exact ⟨rfl, rfl, .refl, (h.keep hrow), rfl, hrow, Table.id_of_get ho.symm, rfl⟩

/-- The benefit a session works on is one the store has, or a copy of it. -/
theorem benefitOf_reads (id : ℕ) (h : S.Inside g m b v) :
    (benefitOf id).Meets S.contract (S.Reads g b v fun row m' => Known row v ∧ m' = m ∧
      row.id = id ∧ (m.benefits = [] → v.benefits.get id = some row)) g m b v := by
  unfold benefitOf
  simp only [meets_bind, meets_remembered, ending_ok]
  cases hf : m.benefits.find? (·.id == id) with
  | some row =>
    refine ⟨rfl, rfl, .refl, h, rfl, h.copies row (List.mem_of_find?_eq_some hf), rfl,
      by simpa using List.find?_some hf, fun hnil => ?_⟩
    simp [hnil] at hf
  | none =>
    simp only [meets_bind, meets_query, ending_ok]
    cases hg : v.benefits.get id with
    | none => exact h.fail (S.faults _ (by simp))
    | some row =>
      exact ⟨rfl, rfl, .refl, h, rfl, ⟨row, Table.mem_of_get hg, rfl⟩, rfl, Table.id_of_get hg, fun _ => rfl⟩

theorem execute_within {f : Store → Store} (h : S.Inside g m b v)
    (c : Change (S.scope g b) v (f v)) :
    (execute f).Meets S.contract (S.Within g b v fun _ m' v' => m' = m ∧ v' = f v) g m b v :=
  ⟨rfl, rfl, .single c, h.change c, rfl, rfl⟩

/-- A flush writes subscriptions only. -/
theorem flush_meets {C : Contract Memory Memory Store}
    {post : Memory → Except Fault (Unit × Memory) → Store → Store → Prop}
    (hok : ∀ t, post g (.ok ((), m.flushed)) b { v with subscriptions := t })
    (herr : post g (.error .integrity) b v) : flush.Meets C post g m b v := by
  unfold flush
  simp only [meets_bind, meets_remembered, meets_query, ending_ok]
  split
  · rename_i t _
    exact hok t
  · exact herr

/-- A flush of what did not change writes nothing. -/
theorem flush_clean {C : Contract Memory Memory Store}
    {post : Memory → Except Fault (Unit × Memory) → Store → Store → Prop} (hm : m.Clean)
    (hok : post g (.ok ((), m.flushed)) b v) : flush.Meets C post g m b v := by
  unfold flush
  simp only [meets_bind, meets_remembered, meets_query, ending_ok]
  rw [writeLoaded_clean (fun l hl => hm l ((List.mem_insertionSort _).mp hl))]
  exact hok

theorem flush_within (h : S.Inside g m b v) :
    flush.Meets S.contract (S.Within g b v fun _ m' v' => m' = m.flushed ∧
      ∃ t, v' = { v with subscriptions := t }) g m b v := by
  refine flush_meets (fun t => ?_) (h.fail (S.faults _ (by simp)))
  have c : Change (S.scope g b) v { v with subscriptions := t } :=
    .aside rfl rfl rfl rfl rfl rfl rfl rfl rfl
  exact ⟨rfl, rfl, .single c, (h.change c).remember {}, rfl, t, rfl⟩

/-- Whatever `insertOrRead` inserts is inserted into a store that differs from the one it
read by a flush. -/
theorem insertOrRead_meets {C : Contract Memory Memory Store} {κ : Type} [Keyed α κ]
    [DecidableEq κ] {table : Store → Table α} {put : Table α → Store → Store} {read : α → Bool}
    {make : ℕ → α} {post : Memory → Except Fault (Option (α × Bool) × Memory) → Store → Store → Prop}
    (hfound : ∀ row, (table v).find read = some row → post g (.ok (some (row, false), m)) b v)
    (hnew : (table v).find read = none → ∀ subs row t,
      (table { v with subscriptions := subs }).insert make = some (row, t) →
      post g (.ok (some (row, true), m.flushed)) b (put t { v with subscriptions := subs }))
    (hlost : (table v).find read = none → ∀ subs, post g (.ok
      (((table { v with subscriptions := subs }).find read).map (·, false), m.flushed)) b
      { v with subscriptions := subs })
    (herr : post g (.error .integrity) b v) :
    (insertOrRead table put read make).Meets C post g m b v := by
  unfold insertOrRead
  simp only [meets_bind, meets_query, ending_ok]
  cases hf : (table v).find read with
  | some row => exact hfound row hf
  | none =>
    simp only [meets_bind]
    refine flush_meets (fun subs => ?_) herr
    simp only [ending_ok, meets_bind, meets_query]
    split
    · rename_i row t ht
      exact hnew hf subs row t ht
    · exact hlost hf subs

theorem insertOrRead_within {κ : Type} [Keyed α κ] [DecidableEq κ] {table : Store → Table α}
    {put : Table α → Store → Store} {read : α → Bool} {make : ℕ → α} (h : S.Inside g m b v)
    (hput : ∀ t s, table (put t s) = t)
    (hins : ∀ subs row t, (table { v with subscriptions := subs }).insert make = some (row, t) →
      Change (S.scope g b) { v with subscriptions := subs }
        (put t { v with subscriptions := subs })) :
    (insertOrRead table put read make).Meets S.contract
      (S.Within g b v fun o m' v' => (∀ row flag, o = some (row, flag) →
        row ∈ table v' ∧ (flag = true → ∃ id, row = make id) ∧
        (flag = false → ∃ subs, v' = { v with subscriptions := subs })) ∧ m'.agenda = m.agenda)
      g m b v := by
  have flushed : ∀ subs, Change (S.scope g b) v { v with subscriptions := subs } :=
    fun subs => .aside rfl rfl rfl rfl rfl rfl rfl rfl rfl
  refine insertOrRead_meets ?_ ?_ ?_ (h.fail (S.faults _ (by simp)))
  · intro row hf
    refine ⟨rfl, rfl, .refl, h, ?_, rfl⟩
    rintro row' flag ho
    obtain ⟨rfl, rfl⟩ := Prod.mk.inj (Option.some.inj ho)
    exact ⟨Table.mem_of_find hf, by simp, fun _ => ⟨v.subscriptions, rfl⟩⟩
  · intro _ subs row t ht
    have c := hins subs row t ht
    refine ⟨rfl, rfl, (Relation.ReflTransGen.single (flushed subs)).tail c,
      ((h.change (flushed subs)).change c).remember {}, ?_, rfl⟩
    rintro row' flag ho
    obtain ⟨rfl, rfl⟩ := Prod.mk.inj (Option.some.inj ho)
    rw [hput]
    exact ⟨(Table.mem_insert ht).mpr (.inr rfl), fun _ => ⟨_, (Table.insert_eq_some ht).1⟩,
      by simp⟩
  · intro _ subs
    refine ⟨rfl, rfl, .single (flushed subs), (h.change (flushed subs)).remember {},
      fun row flag ho => ?_, rfl⟩
    obtain ⟨row', hrow, hr⟩ := Option.map_eq_some_iff.mp ho
    obtain ⟨rfl, rfl⟩ := Prod.mk.inj hr
    exact ⟨Table.mem_of_find hrow, by simp, fun _ => ⟨subs, rfl⟩⟩

theorem writeBenefits_within {p : SubscriptionBenefit → Bool}
    {f : SubscriptionBenefit → SubscriptionBenefit} {still : Still f}
    (hf : ∀ b, (f b).promise = b.promise)
    (hw : ∀ r ∈ v.benefits, p r = true → (S.scope g b).benefit r (f r)) (h : S.Inside g m b v) :
    (writeBenefits p f still).Meets S.contract (S.Within g b v fun _ m' v' => m' = m ∧
      v' = { v with benefits := v.benefits.modify p f still }) g m b v :=
  execute_within h (.schedule p f still hf hw)

theorem writeBenefits_keeps {p : SubscriptionBenefit → Bool}
    {f : SubscriptionBenefit → SubscriptionBenefit} {still : Still f}
    (hf : ∀ b, (f b).promise = b.promise)
    (hw : ∀ g b r, p r = true → (S.scope g b).benefit r (f r)) :
    S.Keeps (writeBenefits p f still) :=
  fun g _ b _ h => h.change (.schedule p f still hf (fun r _ => hw g b r))

theorem writeEntitlements_keeps {p : UserEntitlement → Bool} {f : UserEntitlement → UserEntitlement}
    {still : Still f} : S.Keeps (writeEntitlements p f still) := keeps_beside {}

theorem writeGrant_within (id : ℕ) {f : BenefitGrant → BenefitGrant} (hf : ∀ g, Marks g (f g))
    (h : S.Inside g m b v) (hw : ∀ r ∈ v.grants, r.id = id → (S.scope g b).mark r (f r)) :
    (writeGrant id f).Meets S.contract (S.Within g b v fun _ m' v' =>
      m' = m ∧ ∃ t, v.grants.alter (·.id == id) f = some t ∧ v' = { v with grants := t })
      g m b v := by
  refine meets_bind_reads (query_reads _ h) within_error fun o m₁ h ho => ?_
  refine meets_bind_reads (require_reads (by simp) o h) within_error fun t m₂ h ht => ?_
  obtain ⟨rfl, rfl⟩ := ht
  have c : Change (S.scope g b) v { v with grants := t } :=
    .mark ho.1.symm hf (fun r hr hp => hw r hr (by simpa using hp))
  exact ⟨rfl, rfl, .single c, h.change c, ho.2, t, ho.1.symm, rfl⟩

end Setting
end FastKit
