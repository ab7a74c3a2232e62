import FastKit.Commerce.Settles

/-! # The inbox keeps to the changes

An event is written down, taken, and closed or failed by whoever runs it. A session has the
event it runs in hand from the commit that takes it to the one that ends its run.
-/

namespace FastKit
open Transaction Transaction.Program Setting

/-- An event after a write, which stamps it: what arrived stays what it is. -/
structure Rewritten (moment : ℕ) (e e' : WebhookEvent) : Prop where
  id : e'.id = e.id
  integrationId : e'.integrationId = e.integrationId
  payload : e'.payload = e.payload
  updatedAt : e'.updatedAt = moment

/-- An event that a reader takes. -/
structure Taken (moment : ℕ) (e e' : WebhookEvent) : Prop extends Rewritten moment e e' where
  takeable : Webhook.takeable moment e = true
  processing : e'.status = .processing
  attempts : e'.attempts = e.attempts + 1

/-- An event whose last attempt died with its node, closed as failed. -/
structure Exhausted (moment : ℕ) (e e' : WebhookEvent) : Prop extends Rewritten moment e e' where
  processing : e.status = .processing
  abandoned : Webhook.abandoned moment e = true
  attempted : Webhook.maxAttempts ≤ e.attempts
  failed : e'.status = .failed
  attempts : e'.attempts = e.attempts

structure Ended (moment : ℕ) (e e' : WebhookEvent) : Prop extends Rewritten moment e e' where
  status : e'.status = .completed ∨ e'.status = .ignored ∨ e'.status = .failed
  attempts : e'.attempts = e.attempts

/-- An event stays under its id, moved by the steps a scope allows. -/
theorem Change.event_kept {W : Scope} {s t : Store} (c : Change W s t) {e : WebhookEvent}
    (he : e ∈ s.events) : ∃ e' ∈ t.events, e'.id = e.id ∧ Relation.ReflTransGen W.event e e' := by
  cases c with
  | aside clock catalog benefits grants transactions userProducts purchases events reconciled =>
    exact ⟨e, events ▸ he, rfl, .refl⟩
  | event p f still within =>
    refine ⟨_, Table.mem_modify_of_mem still he, ?_⟩
    split_ifs with hp
    · exact ⟨(still e).1, .single (within e he hp)⟩
    · exact ⟨rfl, .refl⟩
  | received inserted new => exact ⟨e, (Table.mem_insert inserted).mpr (.inl he), rfl, .refl⟩
  | schedule | snapshot | grant | mark | movement | product | purchase | settled | stamp | edit |
    tick => exact ⟨e, he, rfl, .refl⟩

theorem Path.event_kept {W : Scope} {s t : Store} (c : Path W s t) {e : WebhookEvent}
    (he : e ∈ s.events) : ∃ e' ∈ t.events, e'.id = e.id ∧ Relation.ReflTransGen W.event e e' := by
  induction c with
  | refl => exact ⟨e, he, rfl, .refl⟩
  | tail _ c ih =>
    obtain ⟨e₁, he₁, hid₁, hs₁⟩ := ih
    obtain ⟨e₂, he₂, hid₂, hs₂⟩ := c.event_kept he₁
    exact ⟨e₂, he₂, hid₂.trans hid₁, hs₁.trans hs₂⟩

/-- The event was taken in the segment, from where a reader may take it. -/
structure Claimed (W : Scope) (b v : Store) (id : ℕ) : Prop where
  row : ∃ e ∈ v.events, e.id = id ∧ e.status = .processing ∧ e.updatedAt = b.clock
  from' : ∀ e ∈ b.events, e.id = id →
    ∃ e₁, Relation.ReflTransGen W.event e e₁ ∧ Webhook.takeable b.clock e₁ = true

/-- What a session runs under with no event in hand and with each it may take, and what its
segments may make of an event: take it, close it where its last attempt died, and end the
run of the one in hand. -/
structure Inbox (F : Option (ℕ × ℕ) → Setting) : Prop where
  contract : ∀ x, (F x).contract = (F none).contract
  able : ∀ x, (F x).Able
  asks : ∀ x G integration user, (F x).Keeps (reconcileAccount G integration user)
  fault : ∀ e, (F none).fault e
  leave : ∀ {x g m b v}, (F x).Inside g m b v → (F none).Inside g (m.setEvent none) b v
  failed : ∀ {x g e b}, (F x).Failed g e b → (F none).Failed g e b
  take : ∀ g b e e', Taken b.clock e e' → ((F none).scope g b).event e e'
  exhaust : ∀ g b e e', Exhausted b.clock e e' → ((F none).scope g b).event e e'
  finish : ∀ {id t g m b v}, (F (some (id, t))).Inside g m b v → ∀ e ∈ v.events, ∀ e', e.id = id →
    Ended b.clock e e' → ((F none).scope g b).event e e'
  taken : ∀ {g m b v id}, (F none).Inside g m b v → Claimed ((F none).scope g b) b v id →
    (F none).contract.guar g b (m.setEvent (some (id, b.clock))) v ∧
    (F none).contract.shows (m.setEvent (some (id, b.clock))) (m.setEvent (some (id, b.clock))) ∧
    ∀ u, (F none).contract.rely (m.setEvent (some (id, b.clock))) v u →
      (F (some (id, b.clock))).Inside (m.setEvent (some (id, b.clock)))
        (m.setEvent (some (id, b.clock))) u u

/-- Where nothing is asked of the events, a session runs as it does with none in hand. -/
theorem inbox_of {S : Setting} (hS : S.Able) (ht : S.Stamps) (hq : S.Quiet)
    (he : ∀ g b e e', (S.scope g b).event e e')
    (hh : ∀ {g b m} x, S.shows g b m → S.shows g b (m.setEvent x)) : Inbox (fun _ => S.loud) where
  contract := fun _ => rfl
  able := fun _ => hS.loud
  asks := fun _ => reconcileAccount_keeps hS ht hq
  fault := fun _ => trivial
  leave := fun h => ⟨h.base, h.path, h.copies, h.orders, hh none h.shows⟩
  failed := fun h => h
  take := fun g b e e' _ => he g b e e'
  exhaust := fun g b e e' _ => he g b e e'
  finish := fun _ e _ e' _ _ => he _ _ e e'
  taken := by
    intro g m b v id h _
    have hin : S.loud.Inside g (m.setEvent (some (id, b.clock))) b v :=
      ⟨h.base, h.path, h.copies, h.orders, hh _ h.shows⟩
    exact ⟨S.guar hin.shows hin.path 0 S.prompt, S.waits hin.shows, fun u hu => hin.publish hu⟩

namespace Setting
variable {α : Type} {S : Setting} {g m : Memory} {b v : Store}

theorem writeEvent_within {p : WebhookEvent → Bool} {f : WebhookEvent → WebhookEvent}
    {still : Still f} (h : S.Inside g m b v)
    (hw : ∀ e ∈ v.events, p e = true → (S.scope g b).event e { f e with updatedAt := v.clock }) :
    (Webhook.writeEvent p f still).Meets S.contract (S.Within g b v fun _ m' v' => m' = m ∧
      v' = { v with events := v.events.modify p (fun e => { f e with updatedAt := v.clock }) still })
      g m b v := by
  refine meets_bind_reads (query_reads _ h) within_error fun moment m₁ h hn => ?_
  obtain ⟨rfl, rfl⟩ := hn
  have c := Change.event (W := S.scope g b) (s := v) p
    (fun e => { f e with updatedAt := v.clock }) still hw
  exact ⟨rfl, rfl, .single c, h.change c, rfl, rfl⟩

theorem accountNamed_keeps (integration : Integration) (token : ℕ) :
    S.Keeps (Webhook.accountNamed integration token) := keeps_query _

theorem userOf_keeps (integration : Integration) (event : ProviderEvent) :
    S.Keeps (Webhook.userOf integration event) := by
  unfold Webhook.userOf
  cases event.accountToken with
  | none => exact keeps_pure none
  | some token => exact accountNamed_keeps _ _

theorem eventOf_reads (id : ℕ) (h : S.Inside g m b v) :
    (Webhook.eventOf id).Meets S.contract
      (S.Reads g b v fun e m' => e ∈ v.events ∧ e.id = id ∧ m' = m) g m b v := by
  refine meets_bind_reads (query_reads _ h) within_error fun o m h ho => ?_
  refine (require_reads (by simp) o h).mono ?_
  rintro g (e | ⟨e, m⟩) b v hk
  · exact hk
  · obtain ⟨rfl, rfl, hp, h, rfl, rfl, rfl⟩ := hk
    exact ⟨rfl, rfl, hp, h, rfl, Table.mem_of_get ho.1.symm, Table.id_of_get ho.1.symm, ho.2⟩

theorem webhookPurchaseOf_keeps (integration : Integration) (event : ProviderEvent) :
    S.Keeps (Webhook.purchaseOf integration event) :=
  Keeps.bind (keeps_query _) fun _ => keeps_pure _

theorem settlePayment_keeps (integration : Integration) (event : ProviderEvent) :
    S.Keeps (Webhook.settlePayment integration event) := by
  unfold Webhook.settlePayment
  cases event.purchaseStatus with
  | none => exact keeps_pure none
  | some status =>
    refine Keeps.bind (webhookPurchaseOf_keeps _ _) fun found => ?_
    cases found with
    | none => exact keeps_pure none
    | some purchase => exact Keeps.bind (settlePurchase_keeps _ _ _ _) fun _ => keeps_pure _

theorem reconcileNamed_keeps (G : Gateway) (integration : Integration)
    (ha : ∀ user, S.Keeps (reconcileAccount G integration user)) (tokens : List ℕ) :
    S.Keeps (Webhook.reconcileNamed G integration tokens) := by
  induction tokens with
  | nil => exact keeps_pure ()
  | cons token rest ih =>
    refine Keeps.bind (accountNamed_keeps _ _) fun found => ?_
    cases found with
    | none => exact ih
    | some user => exact Keeps.bind (ha user) fun _ => ih

theorem settleUser_keeps (hS : S.Able) (G : Gateway) (integration : Integration)
    (ha : ∀ user, S.Keeps (reconcileAccount G integration user)) (event : ProviderEvent)
    (user : User) : S.Keeps (Webhook.settleUser G integration event user) := by
  refine keeps_ite (Keeps.bind (ha user) fun _ => keeps_pure ()) ?_
  cases event.state with
  | none => exact keeps_pure ()
  | some held => exact Keeps.bind (apply_keeps hS _ _ _ _ _) fun _ => commit_keeps

/-- A call is written down under the name its gateway gave it, unless it is there. -/
theorem store_keeps {make : ℕ → WebhookEvent} (h : S.Inside g m b v)
    (hnew : ∀ id, (make id).attempts = 0 ∧ (make id).updatedAt = v.clock ∧
      ((make id).status = .ignored ∨ (make id).status = .received ∧
        ∃ i ∈ v.catalog.integrations, i.id = (make id).integrationId ∧
          ∃ event, (make id).payload i.provider = .ok (some event))) :
    (Webhook.store make).Meets S.contract S.Kept g m b v := by
  refine meets_bind_within (insertOrRead_within h (fun _ _ => rfl) ?_) kept_error fun o m v' _ h _ => ?_
  · intro subs row t ht
    obtain rfl := (Table.insert_eq_some ht).1
    exact .received ht (hnew _)
  · refine meets_bind_keeps (commit_keeps g m b v' h) fun _ g m b v h => ?_
    refine meets_bind_keeps (keeps_require (by simp) o g m b v h) fun row g m b v h => ?_
    exact h

/-- How a program ends that flushed last, or leaves its writes to whoever catches what it
raises. -/
def Stopped (S : Setting) :
    Memory → Except Fault (α × Memory) → Store → Store → Prop :=
  ending (fun g p b v => S.Inside g p.2 b v ∧ p.2.Clean)
    (fun g e b v => S.fault e ∧ ∃ m, S.Inside g m b v)

theorem stopped_kept {c : Db α} (hc : c.Meets S.contract S.Stopped g m b v) :
    c.Meets S.contract S.Kept g m b v := by
  refine hc.mono ?_
  rintro g (e | ⟨a, m⟩) b v hk
  · obtain ⟨he, m, h⟩ := hk
    exact h.fail he
  · exact hk.1

theorem publish_stopped (h : S.Inside g m b v) (hm : m.Clean) :
    publish.Meets S.contract S.Stopped g m b v := by
  rw [meets_publish]
  exact ⟨_, S.guar h.shows h.path 0 S.prompt, S.waits h.shows, fun u hu => ⟨h.publish hu, hm⟩⟩

theorem commit_stopped (h : S.Inside g m b v) : commit.Meets S.contract S.Stopped g m b v := by
  rw [commit, meets_bind]
  exact flush_meets (fun subs => publish_stopped (h.flushed subs) m.clean_flushed)
    ⟨S.faults _ (by simp), m, h⟩

theorem persist_stopped (h : S.Inside g m b v) : persist.Meets S.contract S.Stopped g m b v := by
  rw [persist, meets_bind, meets_attempt]
  refine flush_meets (fun subs => publish_stopped (h.flushed subs) m.clean_flushed) ?_
  exact ⟨S.faults _ (by simp), m.expired, h.expire⟩

theorem record_stopped (tenant : Option ℕ) (user : ℕ) (level : LogLevel) (message : LogMessage)
    (h : S.Inside g m b v) :
    (record tenant user level message).Meets S.contract S.Stopped g m b v := by
  have c : Change (S.scope g b) v { v with logs := v.logs ++ [⟨tenant, user, level, message⟩] } :=
    .aside rfl rfl rfl rfl rfl rfl rfl rfl rfl
  rw [record, meets_bind, meets_execute, ending_ok]
  exact persist_stopped (h.change c)

theorem writeEvent_meets {C : Contract Memory Memory Store} {p : WebhookEvent → Bool}
    {f : WebhookEvent → WebhookEvent} {still : Still f}
    {post : Memory → Except Fault (Unit × Memory) → Store → Store → Prop}
    (h : post g (.ok ((), m)) b { v with
      events := v.events.modify p (fun e => { f e with updatedAt := v.clock }) still }) :
    (Webhook.writeEvent p f still).Meets C post g m b v := h

/-- The failure of an event is written where its run may end. -/
theorem fail_stopped (id : ℕ) (integration : Integration) (error : Fault) (h : S.Inside g m b v)
    (hw : ∀ e ∈ v.events, ∀ e', e.id = id → Ended b.clock e e' → (S.scope g b).event e e') :
    (Webhook.fail id integration error).Meets S.contract S.Stopped g m b v := by
  rw [Webhook.fail, meets_bind, Webhook.eventOf, meets_bind, meets_query, ending_ok]
  cases v.events.get id with
  | none => exact ⟨S.faults _ (by simp), m, h⟩
  | some row =>
    rw [meets_require_some, ending_ok, meets_bind]
    refine writeEvent_meets ?_
    have c := Change.event (W := S.scope g b) (s := v) (·.id == id)
      (fun e => { e with
        status := .failed, errorCode := some error.name, errorMessage := some error.text,
        updatedAt := v.clock }) (fun _ => ⟨rfl, rfl⟩) fun e he hid =>
          hw e he _ (by simpa using hid) ⟨⟨rfl, rfl, rfl, h.clock⟩, .inr (.inr rfl), rfl⟩
    have h := h.change c
    rw [ending_ok, meets_bind]
    refine (record_stopped _ _ _ _ h).mono ?_
    rintro g (e | ⟨a, m⟩) b v hk
    · exact hk
    · exact commit_stopped hk.1

end Setting

namespace Inbox
variable {α : Type} {F : Option (ℕ × ℕ) → Setting} {x : Option (ℕ × ℕ)} {g m : Memory} {b v : Store}

/-- How the run of the event in hand ends: in the segment its end is written in. -/
def Finished (F : Option (ℕ × ℕ) → Setting) (x : ℕ × ℕ) :
    Memory → Except Fault (α × Memory) → Store → Store → Prop :=
  ending (fun g p b v => (F none).Inside g p.2 b v ∧ ∃ m v, (F (some x)).Inside g m b v)
    (fun g e b _ => (F (some x)).Failed g e b)

theorem finish_inside (hF : Inbox F) {id t : ℕ} {f : WebhookEvent → WebhookEvent}
    (h : (F (some (id, t))).Inside g m b v) (still : Still f)
    (hf : ∀ moment e, Ended moment e { f e with updatedAt := moment }) :
    (F none).Inside g (m.setEvent none) b { v with
      events := v.events.modify (·.id == id) (fun e => { f e with updatedAt := v.clock }) still } :=
  (hF.leave h).change (.event (·.id == id) (fun e => { f e with updatedAt := v.clock }) still
    fun e he hid => hF.finish h e he _ (by simpa using hid) (h.clock ▸ hf v.clock e))

/-- A write that ends the run of the event in hand. -/
theorem finish_meets (hF : Inbox F) {id t : ℕ} {f : WebhookEvent → WebhookEvent} {still : Still f}
    (h : (F (some (id, t))).Inside g m b v)
    (hf : ∀ moment e, Ended moment e { f e with updatedAt := moment }) :
    (do
      remember (Memory.setEvent none)
      Webhook.writeEvent (·.id == id) f still : Db Unit).Meets (F none).contract
      (Finished F (id, t)) g m b v := by
  rw [meets_bind, meets_remember, ending_ok]
  exact writeEvent_meets ⟨hF.finish_inside h still hf, m, v, h⟩

theorem meets_bind_hand {β : Type} (hF : Inbox F) {x : ℕ × ℕ} {c : Db β} {f : β → Db α}
    (hc : (F (some x)).Keeps c) (h : (F (some x)).Inside g m b v)
    (hf : ∀ a g m b v, (F (some x)).Inside g m b v →
      (f a).Meets (F none).contract (Finished F x) g m b v) :
    (c >>= f).Meets (F none).contract (Finished F x) g m b v := by
  rw [← hF.contract (some x)] at hf ⊢
  exact meets_bind_inside (hc g m b v h) (fun _ _ _ _ h => h) hf

/-- Nothing but the end of its run writes the event in hand. -/
theorem apply_finished (hF : Inbox F) (G : Gateway) (integration : Integration)
    (event : ProviderEvent) {id t : ℕ} (h : (F (some (id, t))).Inside g m b v) :
    (Webhook.apply G integration event id).Meets (F none).contract (Finished F (id, t)) g m b v := by
  have hS := hF.able (some (id, t))
  have ha := hF.asks (some (id, t)) G integration
  refine hF.meets_bind_hand (settlePayment_keeps _ _) h fun settled g m b v h => ?_
  refine hF.meets_bind_hand (userOf_keeps _ _) h fun user g m b v h => ?_
  refine hF.meets_bind_hand (reconcileNamed_keeps G _ ha _) h fun _ g m b v h => ?_
  cases user with
  | none =>
    cases settled with
    | none => exact hF.finish_meets h fun _ _ => ⟨⟨rfl, rfl, rfl, rfl⟩, .inr (.inl rfl), rfl⟩
    | some purchase =>
      refine hF.meets_bind_hand (keeps_query _) h fun _ g m b v h => ?_
      exact hF.finish_meets h fun _ _ => ⟨⟨rfl, rfl, rfl, rfl⟩, .inl rfl, rfl⟩
  | some user =>
    refine hF.meets_bind_hand (settleUser_keeps hS G _ ha _ _) h fun _ g m b v h => ?_
    refine hF.meets_bind_hand (keeps_query _) h fun _ g m b v h => ?_
    refine hF.meets_bind_hand (keeps_query _) h fun _ g m b v h => ?_
    exact hF.finish_meets h fun _ _ => ⟨⟨rfl, rfl, rfl, rfl⟩, .inl rfl, rfl⟩

/-- A run closes its event, or starts over and fails it. -/
theorem run_stopped (hF : Inbox F) (G : Gateway) (integration : Integration) (event : ProviderEvent)
    {id t : ℕ} (h : (F (some (id, t))).Inside g m b v) :
    (Webhook.run G integration event id).Meets (F none).contract (F none).Stopped g m b v := by
  have hbody : (do
      Webhook.apply G integration event id
      commit : Db Unit).Meets (F none).contract
      (ending (fun g p b v => (F none).Inside g p.2 b v ∧ p.2.Clean)
        (fun g e b _ => (F (some (id, t))).Failed g e b)) g m b v := by
    refine (hF.apply_finished G integration event h).bind (fun _ _ m b v h => ?_) (fun _ _ _ _ h => h)
    obtain ⟨hin, m₀, v₀, hstart⟩ := h
    rw [commit, meets_bind]
    refine flush_meets (fun subs => ?_) (hstart.fail ((F (some (id, t))).faults _ (by simp)))
    rw [ending_ok, meets_publish]
    have hin := hin.flushed subs
    exact ⟨_, (F none).guar hin.shows hin.path 0 (F none).prompt, (F none).waits hin.shows,
      fun u hu => ⟨hin.publish hu, m.clean_flushed⟩⟩
  rw [Webhook.run, meets_attempt]
  refine hbody.mono ?_
  rintro g' (e | ⟨a, m'⟩) b' v' hk
  · have hstart := h.rescue hk
    have hin := hF.leave hstart
    simp only [ending_error, rollback, meets_bind, meets_revert, meets_remember, ending_ok]
    refine (fail_stopped id integration e hin (hF.finish hstart)).mono ?_
    rintro g₂ (e₂ | ⟨a, m₂⟩) b₂ v₂ hk
    · exact hk
    · exact ⟨hF.fault e, m₂, hk.1⟩
  · exact hk

/-- Whoever takes an event starts its run with it in hand. -/
theorem claim_meets (hF : Inbox F) (id : ℕ)
    {post : Memory → Except Fault (Bool × Memory) → Store → Store → Prop}
    (h : (F none).Inside g m b v) (herr : ¬m.Clean → ∀ v, post g (.error .integrity) b v)
    (hnot : (∀ e ∈ v.events, e.id = id → Webhook.takeable b.clock e = false) →
      ∀ m' v' u, m'.Clean → v'.events = v.events → (F none).contract.rely m' v' u →
        (F none).Inside m' m' u u → post m' (.ok (false, m')) u u)
    (hgot : ∀ e ∈ v.events, e.id = id → Webhook.takeable b.clock e = true →
      ∀ m' v' u, m'.Clean → (∃ e' ∈ v'.events, Taken b.clock e e') →
        (F none).contract.rely m' v' u → (F (some (id, b.clock))).Inside m' m' u u →
        post m' (.ok (true, m')) u u) :
    (Webhook.claim id).Meets (F none).contract post g m b v := by
  have hclock := h.clock
  rw [← hclock] at hnot hgot
  have hflush : ∀ {m : Memory} {v : Store}
      {post : Memory → Except Fault (Unit × Memory) → Store → Store → Prop},
      (¬m.Clean → post g (.error .integrity) b v) →
      (∀ subs, post g (.ok ((), m.flushed)) b { v with subscriptions := subs }) →
      flush.Meets (F none).contract post g m b v := by
    intro m v post herr hok
    by_cases hm : m.Clean
    · exact flush_clean hm (hok v.subscriptions)
    · exact flush_meets hok (herr hm)
  simp only [Webhook.claim, now, meets_bind, meets_query, ending_ok]
  refine meets_ite.mpr ⟨fun htake => ?_, fun htake => ?_⟩
  · cases hget : v.events.get id with
    | none =>
      rw [hget] at htake
      cases htake
    | some e =>
      rw [hget, Option.any_some] at htake
      have he := Table.mem_of_get hget
      have hid : e.id = id := Table.id_of_get hget
      have hw : ∀ e₀ ∈ v.events, (e₀.id == id) = true → Taken v.clock e₀
          { e₀ with status := .processing, attempts := e₀.attempts + 1, updatedAt := v.clock } := by
        intro e₀ he₀ hid₀
        obtain rfl : e = e₀ := Table.eq_of_id he he₀ (hid.trans (beq_iff_eq.mp hid₀).symm)
        exact ⟨⟨rfl, rfl, rfl, rfl⟩, htake, rfl, rfl⟩
      have hin := h.change (Change.event (W := (F none).scope g b) (s := v) (·.id == id)
        (fun e => { e with
          status := .processing, attempts := e.attempts + 1, updatedAt := v.clock })
        (fun _ => ⟨rfl, rfl⟩) fun e₀ he₀ hid₀ => hF.take g b e₀ _ (hclock ▸ hw e₀ he₀ hid₀))
      have hrow := Table.mem_modify_of_mem (p := (·.id == id))
        (f := fun e : WebhookEvent => { e with
          status := .processing, attempts := e.attempts + 1, updatedAt := v.clock })
        (fun _ => ⟨rfl, rfl⟩) he
      rw [if_pos (beq_iff_eq.mpr hid)] at hrow
      rw [meets_bind]
      refine writeEvent_meets ?_
      simp only [ending_ok, meets_bind, meets_remember, commit]
      refine hflush (fun hm => herr hm _) fun subs => ?_
      have hclaimed : Claimed ((F none).scope g b) b { v with
          subscriptions := subs
          events := v.events.modify (·.id == id) (fun e => { e with
            status := .processing, attempts := e.attempts + 1, updatedAt := v.clock })
            (fun _ => ⟨rfl, rfl⟩) } id := by
        refine ⟨⟨_, hrow, hid, rfl, hclock⟩, fun e₀ he₀ hid₀ => ?_⟩
        obtain ⟨e₁, he₁, hid₁, hs⟩ := Path.event_kept h.path he₀
        obtain rfl : e = e₁ := Table.eq_of_id he he₁ (hid.trans (hid₁.trans hid₀).symm)
        exact ⟨e, hs, hclock ▸ htake⟩
      obtain ⟨hguar, hshows, hstart⟩ := hF.taken (hin.flushed subs) hclaimed
      rw [← hclock] at hguar hshows hstart
      simp only [ending_ok, meets_publish, meets_pure]
      refine ⟨_, hguar, hshows, fun u hu => ?_⟩
      exact hgot e he hid htake (m.flushed.setEvent _) _ u m.clean_flushed
        ⟨_, hrow, hw e he (beq_iff_eq.mpr hid)⟩ hu (hstart u hu)
  · simp only [meets_bind, commit]
    refine hflush (fun hm => herr hm _) fun subs => ?_
    have hin := h.flushed subs
    simp only [ending_ok, meets_publish, meets_pure]
    refine ⟨_, (F none).guar hin.shows hin.path 0 (F none).prompt, (F none).waits hin.shows,
      fun u hu => ?_⟩
    refine hnot (fun e he hid => ?_) _ { v with subscriptions := subs } u m.clean_flushed rfl hu
      (hin.publish hu)
    rw [← hid, show v.events.get e.id = some e from Table.get_of_mem he, Option.any_some] at htake
    exact Bool.eq_false_iff.mpr htake

/-- What is read of a call is read of it again once it is written down. -/
theorem ingest_keeps (hF : Inbox F) (G : Gateway) (integration : Integration) (call : InboundCall)
    (h : (F none).Inside g m b v) (hi : integration ∈ v.catalog.integrations) :
    (Webhook.ingest G integration call).Meets (F none).contract (F none).Kept g m b v := by
  unfold Webhook.ingest
  cases call.refused with
  | some error => exact h.fail (hF.fault error)
  | none =>
    cases hread : call.data integration.provider with
    | error error => exact h.fail (hF.fault error)
    | ok event =>
      cases event with
      | none =>
        refine meets_bind_keeps (c := Webhook.unread integration call) ?_ fun _ g m b v h => h
        refine meets_bind_reads (query_reads _ h) kept_error fun moment m h hn => ?_
        exact store_keeps h fun _ => ⟨rfl, hn.1, .inl rfl⟩
      | some event =>
        refine meets_bind_keeps (c := Webhook.recordOf integration event call) ?_
          fun row g m b v h => ?_
        · refine meets_bind_reads (query_reads _ h) kept_error fun found m h _ => ?_
          cases found with
          | some existing => exact h
          | none =>
            refine meets_bind_reads (query_reads _ h) kept_error fun moment m h hn => ?_
            exact store_keeps h fun _ =>
              ⟨rfl, hn.1, .inr ⟨rfl, integration, hi, rfl, event, hread⟩⟩
        · refine meets_ite.mpr ⟨fun _ => h, fun _ => ?_⟩
          rw [meets_bind]
          refine hF.claim_meets row.id h (fun _ _ => h.fail (hF.fault _)) ?_ ?_
          · intro _ m' _ u _ _ _ hin
            exact meets_ite.mpr ⟨fun hf => absurd hf (by simp), fun _ => hin⟩
          · intro _ _ _ _ m' _ u _ _ _ hin
            exact meets_ite.mpr ⟨fun _ => stopped_kept (hF.run_stopped G integration event hin),
              fun hf => absurd rfl hf⟩

theorem receive_keeps (hF : Inbox F) (G : Gateway) (key : ℕ) (call : InboundCall) :
    (F none).Keeps (Webhook.receive G key call) := by
  intro g m b v h
  refine meets_bind_reads (query_reads _ h) kept_error fun found m h hf => ?_
  cases found with
  | none => exact h
  | some integration =>
    exact hF.ingest_keeps G integration call h (List.mem_of_find?_eq_some hf.1.symm)

theorem closeExhausted_keeps (hF : Inbox F) : (F none).Keeps Webhook.closeExhausted := by
  intro g m b v h
  refine meets_bind_reads (query_reads _ h) kept_error fun moment m h hn => ?_
  refine meets_bind_within (writeEvent_within h fun e _ hp => ?_) kept_error ?_
  · simp only [Bool.and_eq_true, beq_iff_eq, decide_eq_true_eq] at hp
    obtain ⟨⟨hprocessing, habandoned⟩, hattempts⟩ := hp
    exact hF.exhaust _ _ _ _ ⟨⟨rfl, rfl, rfl, h.clock⟩, hprocessing,
      h.clock ▸ hn.1 ▸ habandoned, hattempts, rfl, rfl⟩
  · exact fun _ m v _ h _ => commit_keeps _ _ _ _ h

/-- A retry pass leaves an event it cannot run where it wrote the failure down, and starts the
next one with nothing in memory. -/
theorem retryRun_stopped (hF : Inbox F) (G : Gateway) (integration : Integration)
    (event : ProviderEvent) {id t : ℕ} (h : (F (some (id, t))).Inside g m b v) :
    (attempt
      (do
        Webhook.run G integration event id
        pure true)
      (fun _ => do
        remember (fun m => m.expired.setEvent none)
        pure false) : Db Bool).Meets (F none).contract
      (ending (fun g p b v => (F none).Inside g p.2 b v ∧ p.2.Clean) fun _ _ _ _ => False)
      g m b v := by
  rw [meets_attempt, meets_bind]
  refine (hF.run_stopped G integration event h).mono ?_
  rintro g (e | ⟨a, m'⟩) b v hk
  · obtain ⟨-, m', hin⟩ := hk
    rw [ending_error, ending_error, meets_bind, meets_remember, ending_ok]
    refine ⟨⟨hin.base, hin.path, ?_, ?_, (F none).rescued (hF.leave h).shows hin.shows⟩,
      m.clean_expired⟩
    · exact fun c hc => absurd hc List.not_mem_nil
    · exact fun c hc => absurd hc List.not_mem_nil
  · exact hk

/-- An event that is not one anybody reads is marked, and its run is over. -/
theorem ignore_stopped (hF : Inbox F) {id t : ℕ} (h : (F (some (id, t))).Inside g m b v)
    (hm : m.Clean) : (do
      remember (Memory.setEvent none)
      Webhook.writeEvent (·.id == id) (fun e => { e with status := .ignored }) (fun _ => ⟨rfl, rfl⟩)
      commit
      pure false : Db Bool).Meets (F none).contract
      (ending (fun g p b v => (F none).Inside g p.2 b v ∧ p.2.Clean) fun _ _ _ _ => False)
      g m b v := by
  have hin := hF.finish_inside h (f := fun e => { e with status := .ignored })
    (fun _ => ⟨rfl, rfl⟩) fun _ _ => ⟨⟨rfl, rfl, rfl, rfl⟩, .inr (.inl rfl), rfl⟩
  rw [meets_bind, meets_remember, ending_ok, meets_bind]
  refine writeEvent_meets ?_
  rw [ending_ok, commit, bind_assoc, meets_bind]
  refine flush_clean hm ?_
  have hin := hin.flushed v.subscriptions
  rw [ending_ok, meets_bind, meets_publish]
  exact ⟨_, (F none).guar hin.shows hin.path 0 (F none).prompt, (F none).waits hin.shows,
    fun u hu => ⟨hin.publish hu, Memory.clean_flushed _⟩⟩

theorem retryEvent_keeps (hF : Inbox F) (G : Gateway) (id : ℕ) :
    (F none).Keeps (Webhook.retryEvent G id) := by
  intro g m b v h
  rw [Webhook.retryEvent, meets_bind]
  refine hF.claim_meets id h (fun _ _ => h.fail (hF.fault _)) ?_ ?_
  · intro _ m' _ u _ _ _ hin
    exact meets_ite.mpr ⟨fun _ => hin, fun hf => absurd rfl hf⟩
  · intro _ _ _ _ m' _ u _ _ _ h
    refine meets_ite.mpr ⟨fun hf => absurd hf (by simp), fun _ => ?_⟩
    rw [← hF.contract (some (id, b.clock))]
    have herr : ∀ g' e b' v', (F (some (id, b.clock))).Failed g' e b' →
        (F none).Kept (α := Bool) g' (.error e) b' v' := fun _ _ _ _ h => hF.failed h
    refine meets_bind_reads (eventOf_reads id h) herr fun row m h hrow => ?_
    obtain ⟨-, -, rfl⟩ := hrow
    refine meets_bind_reads (query_reads _ h) herr fun found m h hf => ?_
    obtain ⟨-, rfl⟩ := hf
    refine meets_bind_reads (require_reads (by simp) found h) herr fun integration m h hi => ?_
    obtain ⟨-, rfl⟩ := hi
    rw [hF.contract]
    split
    · rename_i error _
      exact ⟨(hF.leave h).base, hF.fault error, _, (hF.leave h).shows⟩
    · have hin := hF.finish_inside h (f := fun e => { e with status := .ignored })
        (fun _ => ⟨rfl, rfl⟩) fun _ _ => ⟨⟨rfl, rfl, rfl, rfl⟩, .inr (.inl rfl), rfl⟩
      rw [meets_bind, meets_remember, ending_ok, meets_bind]
      exact writeEvent_meets (meets_bind_keeps (commit_keeps _ _ _ _ hin) fun _ g m b v h => h)
    · rename_i event _
      refine (hF.retryRun_stopped G integration event h).mono ?_
      rintro g (e | ⟨a, m'⟩) b v hk
      · exact hk.elim
      · exact hk.1

theorem retryEach_keeps (hF : Inbox F) (G : Gateway) (ids : List ℕ) :
    (F none).Keeps (Webhook.retryEach G ids) := by
  induction ids with
  | nil => exact keeps_pure []
  | cons id rest ih =>
    refine Keeps.bind (hF.retryEvent_keeps G id) fun done => ?_
    exact Keeps.bind ih fun _ => keeps_pure _

theorem retryFailed_keeps (hF : Inbox F) (G : Gateway) : (F none).Keeps (Webhook.retryFailed G) :=
  Keeps.bind (keeps_query _) fun _ => Keeps.bind (keeps_query _) fun _ => hF.retryEach_keeps G _

end Inbox
end FastKit
