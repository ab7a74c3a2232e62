import FastKit.Runs

/-! # The inbox loses nothing and repeats nothing

An event moves forward only: it is taken once more, or its run ends. As long as no session
goes on with a run of an event that was written since it took it, an event is closed at most
once and never run after it, and two runs of one event overlap only where the first outlived
the window.
-/

namespace FastKit
open Transaction Transaction.Program

/-- How an event moves on: it stays, it is taken once more, or its run ends. -/
structure Onward (e e' : WebhookEvent) : Prop where
  id : e'.id = e.id
  integrationId : e'.integrationId = e.integrationId
  payload : e'.payload = e.payload
  moved : e' = e ∨ (Webhook.closed e.status = false ∧ e.attempts < e'.attempts) ∨
    (e.status = .processing ∧ e'.attempts = e.attempts ∧
      (Webhook.closed e'.status = true ∨ e'.status = .failed))

theorem Onward.refl (e : WebhookEvent) : Onward e e := ⟨rfl, rfl, rfl, .inl rfl⟩

theorem Onward.trans {e e' e'' : WebhookEvent} (h : Onward e e') (h' : Onward e' e'') :
    Onward e e'' := by
  refine ⟨h'.id.trans h.id, h'.integrationId.trans h.integrationId, h'.payload.trans h.payload, ?_⟩
  rcases h.moved with rfl | ⟨hopen, hlt⟩ | ⟨hp, ha, hend⟩
  · exact h'.moved
  · rcases h'.moved with rfl | ⟨-, hlt'⟩ | ⟨-, ha', -⟩
    · exact .inr (.inl ⟨hopen, hlt⟩)
    · exact .inr (.inl ⟨hopen, hlt.trans hlt'⟩)
    · exact .inr (.inl ⟨hopen, ha' ▸ hlt⟩)
  · have hopen : Webhook.closed e.status = false := by
      rw [hp]
      rfl
    rcases h'.moved with rfl | ⟨-, hlt'⟩ | ⟨hp', -, -⟩
    · exact .inr (.inr ⟨hp, ha, hend⟩)
    · exact .inr (.inl ⟨hopen, ha ▸ hlt'⟩)
    · rw [hp'] at hend
      rcases hend with hend | hend <;> cases hend

/-- An event that is closed is not touched anymore. -/
theorem Onward.closed {e e' : WebhookEvent} (h : Onward e e')
    (hc : Webhook.closed e.status = true) : e' = e := by
  rcases h.moved with rfl | ⟨hopen, -⟩ | ⟨hp, -, -⟩
  · rfl
  · rw [hc] at hopen
    cases hopen
  · rw [hp] at hc
    cases hc

theorem Onward.attempts {e e' : WebhookEvent} (h : Onward e e') : e.attempts ≤ e'.attempts := by
  rcases h.moved with rfl | ⟨-, hlt⟩ | ⟨-, ha, -⟩
  · exact le_rfl
  · exact hlt.le
  · exact ha.ge

theorem takeable_open {moment : ℕ} {e : WebhookEvent} (h : Webhook.takeable moment e = true) :
    Webhook.closed e.status = false := by
  cases hs : e.status <;> simp_all [Webhook.takeable, Webhook.closed]

theorem takeable_later {moment later : ℕ} {e : WebhookEvent} (hle : moment ≤ later)
    (h : Webhook.takeable moment e = true) : Webhook.takeable later e = true := by
  simp only [Webhook.takeable, Webhook.abandoned, Bool.or_eq_true, Bool.and_eq_true, beq_iff_eq,
    decide_eq_true_eq] at h ⊢
  exact h.imp_right fun h => ⟨h.1, h.2.trans_le hle⟩

theorem Taken.onward {moment : ℕ} {e e' : WebhookEvent} (h : Taken moment e e') : Onward e e' :=
  ⟨h.id, h.integrationId, h.payload,
    .inr (.inl ⟨takeable_open h.takeable, by rw [h.attempts]; exact Nat.lt_succ_self _⟩)⟩

theorem Exhausted.onward {moment : ℕ} {e e' : WebhookEvent} (h : Exhausted moment e e') :
    Onward e e' := ⟨h.id, h.integrationId, h.payload, .inr (.inr ⟨h.processing, h.attempts, .inr h.failed⟩)⟩

theorem Ended.onward {moment : ℕ} {e e' : WebhookEvent} (h : Ended moment e e')
    (hp : e.status = .processing) : Onward e e' := by
  refine ⟨h.id, h.integrationId, h.payload, .inr (.inr ⟨hp, h.attempts, ?_⟩)⟩
  rcases h.status with hs | hs | hs
  · exact .inl (by rw [hs]; rfl)
  · exact .inl (by rw [hs]; rfl)
  · exact .inr hs

/-- The call of an event can be read again. -/
def Readable (c : Catalog) (e : WebhookEvent) : Prop :=
  ∃ i, c.integrations.find? (·.id == e.integrationId) = some i ∧
    ∃ answer, e.payload i.provider = .ok answer

instance (c : Catalog) (e : WebhookEvent) : Decidable (Readable c e) :=
  decidable_of_iff ((c.integrations.find? (·.id == e.integrationId)).any
    (fun i => (e.payload i.provider).toBool) = true) (by
      rw [Option.any_eq_true]
      refine exists_congr fun i => and_congr_right fun _ => ?_
      cases e.payload i.provider <;> simp [Except.toBool])

/-- What a segment with an event in hand as it starts may write of the events: it takes them,
closes them where the last attempt died, and ends the run of the one in hand where it stands. -/
def inboxScope (g : Memory) (b : Store) : Scope where
  grant := fun _ => True
  benefit := fun _ _ => True
  mark := fun _ _ => True
  deliver := fun _ => True
  event := fun e e' => Taken b.clock e e' ∨ Exhausted b.clock e e' ∨
    ((∃ t, g.agenda.event = some (e.id, t)) ∧ e ∈ b.events ∧ Ended b.clock e e')
  stamp := fun _ _ => True
  edit := False
  tick := False

/-- Where the run of an event is under way, nothing is written of the events. -/
def handScope : Scope := { Scope.any with event := fun _ _ => False, edit := False, tick := False }

/-- What a segment makes of an event, write after write. -/
abbrev Worked (g : Memory) (b : Store) : WebhookEvent → WebhookEvent → Prop :=
  Relation.ReflTransGen (inboxScope g b).event

/-- What a session has in hand after a segment: nothing, what it had with every event as it
was, or an event it took in the segment. -/
def Hands (g : Memory) (s : Store) (m : Memory) (t : Store) : Prop :=
  m.agenda.event = none ∨ (m.agenda.event = g.agenda.event ∧ ∀ e ∈ s.events, e ∈ t.events) ∨
    ∃ id, m.agenda.event = some (id, s.clock) ∧ Claimed (inboxScope g s) s t id

/-- What a session relies on of the events and promises of them, by what it has in hand. -/
def inboxContract : Contract Memory Memory Store where
  rely := fun _ s t => Path .any s t ∧ t.catalog = s.catalog ∧
    ∀ e ∈ s.events, ∃ e' ∈ t.events, Onward e e'
  guar := fun g s m t => Path .any s t ∧ t.catalog = s.catalog ∧
    (∀ e ∈ s.events, ∃ e' ∈ t.events, e'.id = e.id ∧ Worked g s e e') ∧
    (∀ e ∈ t.events, s.events.Lacks e → e.updatedAt = s.clock) ∧ Hands g s m t
  shows := Eq
  prompt := True

/-- What a retry pass has handled of the events it listed, and what is still ahead of it. -/
structure Follows (past rest : List WebhookEvent) (g : Memory) (s : Store) : Prop where
  handled : ∀ e ∈ past, ∃ e' ∈ s.events, e'.id = e.id ∧ (e.attempts < e'.attempts ∨
    Webhook.closed e'.status = true ∧ ∀ t, g.agenda.event ≠ some (e.id, t))
  ahead : ∀ e ∈ rest, ∃ e' ∈ s.events, e'.id = e.id ∧ e'.integrationId = e.integrationId ∧
    e'.payload = e.payload ∧ e.attempts ≤ e'.attempts ∧ (Webhook.closed e'.status = true ∨
      e.attempts < e'.attempts ∨ Webhook.takeable s.clock e' = true)
  readable : ∀ e ∈ rest, Readable s.catalog e

variable {past rest : List WebhookEvent} {g m : Memory} {b s t : Store}

theorem follows_nil : Follows [] [] g s := ⟨by simp, by simp, by simp⟩

/-- What is handled stays handled under one write of the session. -/
theorem handled_write {e x y : WebhookEvent} (hid : x.id = e.id)
    (h : e.attempts < x.attempts ∨
      Webhook.closed x.status = true ∧ ∀ t, g.agenda.event ≠ some (e.id, t))
    (w : (inboxScope g b).event x y) :
    e.attempts < y.attempts ∨
      Webhook.closed y.status = true ∧ ∀ t, g.agenda.event ≠ some (e.id, t) := by
  rcases w with w | w | ⟨⟨t, ht⟩, -, w⟩
  · have hopen := takeable_open w.takeable
    rcases h with h | ⟨h, -⟩
    · exact .inl (by rw [w.attempts]; omega)
    · rw [h] at hopen
      cases hopen
  · rcases h with h | ⟨h, -⟩
    · exact .inl (by rw [w.attempts]; exact h)
    · rw [w.processing] at h
      cases h
  · rcases h with h | ⟨-, h⟩
    · exact .inl (by rw [w.attempts]; exact h)
    · exact absurd (hid ▸ ht) (h t)

/-- What is ahead stays ahead, or is handled, under one write of the session. -/
theorem ahead_write {moment : ℕ} {e x y : WebhookEvent} (hle : e.attempts ≤ x.attempts)
    (w : (inboxScope g b).event x y) : e.attempts ≤ y.attempts ∧
      (Webhook.closed y.status = true ∨ e.attempts < y.attempts ∨
        Webhook.takeable moment y = true) := by
  have hfailed : ∀ {y : WebhookEvent}, y.status = .failed → Webhook.takeable moment y = true := by
    intro y hy
    simp [Webhook.takeable, hy]
  rcases w with w | w | ⟨-, -, w⟩
  · exact ⟨by rw [w.attempts]; omega, .inr (.inl (by rw [w.attempts]; omega))⟩
  · exact ⟨by rw [w.attempts]; exact hle, .inr (.inr (hfailed w.failed))⟩
  · refine ⟨by rw [w.attempts]; exact hle, ?_⟩
    rcases w.status with hs | hs | hs
    · exact .inl (by rw [hs]; rfl)
    · exact .inl (by rw [hs]; rfl)
    · exact .inr (.inr (hfailed hs))

theorem rewritten_write {x y : WebhookEvent} (w : (inboxScope g b).event x y) :
    Rewritten b.clock x y := by
  rcases w with w | w | ⟨-, -, w⟩
  · exact w.toRewritten
  · exact w.toRewritten
  · exact w.toRewritten

theorem Follows.change (c : Change (inboxScope g b) s t) (h : Follows past rest g s) :
    Follows past rest g t := by
  have hclock : t.clock = s.clock := Path.clock (.single c) fun h => h
  have hcatalog : t.catalog = s.catalog := Path.catalog (.single c) fun h => h
  refine ⟨fun e he => ?_, fun e he => ?_, by rw [hcatalog]; exact h.readable⟩
  · obtain ⟨x, hx, hid, hd⟩ := h.handled e he
    obtain ⟨y, hy, hidy, w⟩ := c.event_kept hx
    suffices hs : y.id = e.id ∧ (e.attempts < y.attempts ∨
        Webhook.closed y.status = true ∧ ∀ t, g.agenda.event ≠ some (e.id, t)) from
      ⟨y, hy, hs.1, hs.2⟩
    clear hy hidy
    induction w with
    | refl => exact ⟨hid, hd⟩
    | tail _ w ih => exact ⟨(rewritten_write w).id.trans ih.1, handled_write ih.1 ih.2 w⟩
  · obtain ⟨x, hx, hid, hi, hp, hle, hd⟩ := h.ahead e he
    obtain ⟨y, hy, -, w⟩ := c.event_kept hx
    suffices hs : y.id = e.id ∧ y.integrationId = e.integrationId ∧ y.payload = e.payload ∧
        e.attempts ≤ y.attempts ∧ (Webhook.closed y.status = true ∨ e.attempts < y.attempts ∨
          Webhook.takeable t.clock y = true) from ⟨y, hy, hs⟩
    clear hy
    induction w with
    | refl => exact ⟨hid, hi, hp, hle, hclock ▸ hd⟩
    | tail _ w ih =>
      have hw := rewritten_write w
      exact ⟨hw.id.trans ih.1, hw.integrationId.trans ih.2.1, hw.payload.trans ih.2.2.1,
        ahead_write ih.2.2.2.1 w⟩

theorem Follows.tick (duration : ℕ) (h : Follows past rest g s) :
    Follows past rest g { s with clock := s.clock + duration } := by
  refine ⟨h.handled, fun e he => ?_, h.readable⟩
  obtain ⟨x, hx, hid, hi, hp, hle, hd⟩ := h.ahead e he
  exact ⟨x, hx, hid, hi, hp, hle, hd.imp_right
    (Or.imp_right (takeable_later (Nat.le_add_right _ _)))⟩

/-- What others do leaves a pass where it is, whatever it has in hand now. -/
theorem Follows.others (h : Follows past rest g s) (hr : inboxContract.rely m s t)
    (hm : m.agenda.event = none ∨ m.agenda.event = g.agenda.event) : Follows past rest m t := by
  obtain ⟨hpath, hcatalog, honward⟩ := hr
  have hclock := Path.clock_le hpath
  refine ⟨fun e he => ?_, fun e he => ?_, by rw [hcatalog]; exact h.readable⟩
  · obtain ⟨x, hx, hid, hd⟩ := h.handled e he
    obtain ⟨y, hy, hxy⟩ := honward x hx
    refine ⟨y, hy, hxy.id.trans hid, ?_⟩
    rcases hd with hd | ⟨hc, hn⟩
    · exact .inl (hd.trans_le hxy.attempts)
    · obtain rfl := hxy.closed hc
      refine .inr ⟨hc, fun t ht => ?_⟩
      rcases hm with hm | hm
      · rw [hm] at ht
        cases ht
      · exact hn t (hm ▸ ht)
  · obtain ⟨x, hx, hid, hi, hp, hle, hd⟩ := h.ahead e he
    obtain ⟨y, hy, hxy⟩ := honward x hx
    refine ⟨y, hy, hxy.id.trans hid, hxy.integrationId.trans hi, hxy.payload.trans hp,
      hle.trans hxy.attempts, ?_⟩
    rcases hxy.moved with rfl | ⟨-, hlt⟩ | ⟨-, ha, hend⟩
    · exact hd.imp_right (Or.imp_right (takeable_later hclock))
    · exact .inr (.inl (hle.trans_lt hlt))
    · rcases hend with hend | hend
      · exact .inl hend
      · exact .inr (.inr (by simp [Webhook.takeable, hend]))

/-- A row that is new to the store a segment started on is stamped by it. -/
theorem Path.arrived (c : Path (inboxScope g s) s t) :
    ∀ e ∈ t.events, s.events.Lacks e → e.updatedAt = s.clock := by
  have hclock := fun {u} (c : Path (inboxScope g s) s u) => Path.clock c fun h => h
  induction c with
  | refl => exact fun e he hnew => absurd rfl (hnew e he)
  | @tail u v past c ih =>
    intro e he hnew
    cases c with
    | aside clock catalog benefits grants transactions userProducts purchases events reconciled =>
      exact ih e (events ▸ he) hnew
    | event p f still within =>
      obtain ⟨x, hx, rfl⟩ := (Table.mem_modify still).mp he
      split_ifs at hnew ⊢ with hp
      · exact (rewritten_write (within x hx hp)).updatedAt
      · exact ih x hx hnew
    | received inserted new =>
      rcases (Table.mem_insert inserted).mp he with he | rfl
      · exact ih e he hnew
      · exact new.2.1.trans (hclock past)
    | schedule | snapshot | grant | mark | movement | product | purchase | settled | stamp | edit |
      tick => exact ih e he hnew

theorem handScope_le (g : Memory) (b : Store) : handScope.Le (inboxScope g b) :=
  ⟨fun _ _ => trivial, fun _ _ _ => trivial, fun _ _ _ => trivial, fun _ _ => trivial,
    fun _ _ h => h.elim, fun _ _ _ => trivial, fun h => h, fun h => h⟩

/-- Where the run of an event is under way, every event stays as it is. -/
theorem Path.event_still (c : Path handScope s t) {e : WebhookEvent} (he : e ∈ s.events) :
    e ∈ t.events := by
  obtain ⟨y, hy, -, w⟩ := Path.event_kept c he
  cases w with
  | refl => exact hy
  | tail _ w => exact w.elim

/-- The event in hand is there. -/
def Present (x : Option (ℕ × ℕ)) (s : Store) : Prop := ∀ p ∈ x, ∃ e ∈ s.events, e.id = p.1

/-- The setting of a session by what it has in hand, while a retry pass has handled some of
what it listed. -/
def inboxSetting (past rest : List WebhookEvent) (x : Option (ℕ × ℕ)) : Setting where
  contract := inboxContract
  scope := fun g b => if x = none then inboxScope g b else handScope
  shows := fun g _ m => m.agenda.event = x ∧ (x = none ∨ g.agenda.event = x)
  fault := fun e => ¬Setting.Fault.outage e
  inv := fun g s => Follows past rest g s ∧ Present x s
  lapses := fun _ => True
  prompt := trivial
  rely := fun h => h.1
  guar := by
    rintro g s m t ⟨hm, hg⟩ c duration -
    have hin : Path (inboxScope g s) s t := by
      split_ifs at c
      · exact c
      · exact Path.widen (handScope_le g s) c
    have harrived := Path.arrived hin
    have hcatalog := Path.catalog hin fun h => h
    refine ⟨c.any.tail (.tick duration trivial), hcatalog,
      fun e he => Path.event_kept hin he, harrived, ?_⟩
    by_cases hx : x = none
    · exact .inl (hm.trans hx)
    · rw [if_neg hx] at c
      exact .inr (.inl ⟨hm.trans (hg.resolve_left hx).symm, fun e he => Path.event_still c he⟩)
  waits := fun _ => rfl
  restart := fun h _ => ⟨h.1, .inr h.1⟩
  rescued := fun h h' => ⟨h.1, h'.2⟩
  loads := fun ha _ _ h => ⟨(congrArg Agenda.event ha).trans h.1, h.2⟩
  plan := fun _ h => h
  faults := Setting.Fault.not_outage
  inv_change := by
    rintro g b s t c ⟨h, hp⟩
    have hin : Change (inboxScope g b) s t := by
      split_ifs at c
      · exact c
      · exact c.widen (handScope_le g b)
    refine ⟨h.change hin, fun p hx => ?_⟩
    obtain ⟨e, he, hid⟩ := hp p hx
    obtain ⟨y, hy, hidy, -⟩ := hin.event_kept he
    exact ⟨y, hy, hidy.trans hid⟩
  inv_rely := by
    rintro g b m s t ⟨hm, hg⟩ hr ⟨h, hp⟩
    refine ⟨h.others hr ?_, fun p hx => ?_⟩
    · rcases hg with rfl | hg
      · exact .inl hm
      · exact .inr (hm.trans hg.symm)
    · obtain ⟨e, he, hid⟩ := hp p hx
      obtain ⟨y, hy, hxy⟩ := hr.2.2 e he
      exact ⟨y, hy, hxy.id.trans hid⟩
  inv_tick := fun duration _ h => ⟨h.1.tick duration, h.2⟩
  unedited := by
    intro g s
    split_ifs <;> exact fun h => h
  untimed := by
    intro g s
    split_ifs <;> exact fun h => h

theorem inboxSetting_able (past rest : List WebhookEvent) (x : Option (ℕ × ℕ)) :
    (inboxSetting past rest x).Able := by
  have hW : (inboxSetting past rest x).Works := by
    refine ⟨⟨fun _ he _ _ h => ⟨he.trans h.1, h.2⟩⟩, fun g b _ _ => ?_, fun g b _ => ?_⟩
    · dsimp only [inboxSetting]
      split_ifs <;> exact trivial
    · dsimp only [inboxSetting]
      split_ifs <;> exact trivial
  refine hW.able (fun g b _ _ => ?_) (fun g b _ => ?_) (fun he _ h => ⟨he.trans h.1, h.2⟩)
  · dsimp only [inboxSetting]
    split_ifs <;> exact trivial
  · dsimp only [inboxSetting]
    split_ifs <;> exact trivial

/-- What a session runs under, by what it has in hand. -/
abbrev inboxOf (past rest : List WebhookEvent) (x : Option (ℕ × ℕ)) : Setting :=
  (inboxSetting past rest x).loud

theorem inboxOf_stamps (past rest : List WebhookEvent) (x : Option (ℕ × ℕ)) :
    (inboxSetting past rest x).Stamps := by
  refine ⟨fun g b _ _ => ?_, fun _ => trivial⟩
  dsimp only [inboxSetting]
  split_ifs <;> exact trivial

variable {x : Option (ℕ × ℕ)} {v : Store}

/-- A run starts where its event was taken. -/
theorem inboxOf_taken {id : ℕ} (h : (inboxOf past rest none).Inside g m b v)
    (hc : Claimed (inboxScope g b) b v id) :
    inboxContract.guar g b (m.setEvent (some (id, b.clock))) v ∧
      inboxContract.shows (m.setEvent (some (id, b.clock))) (m.setEvent (some (id, b.clock))) ∧
      ∀ u, inboxContract.rely (m.setEvent (some (id, b.clock))) v u →
        (inboxOf past rest (some (id, b.clock))).Inside (m.setEvent (some (id, b.clock)))
          (m.setEvent (some (id, b.clock))) u u := by
  have hpath : Path (inboxScope g b) b v := h.path
  have hcatalog := Path.catalog hpath fun h => h
  refine ⟨⟨Path.any hpath, hcatalog, fun e he => Path.event_kept hpath he,
    Path.arrived hpath, .inr (.inr ⟨id, rfl, hc⟩)⟩, rfl, fun u hu => ?_⟩
  obtain ⟨hfollows, -⟩ := h.view
  obtain ⟨row, hrow, hid, hprocessing, -⟩ := hc.row
  have hpast : Follows past rest (m.setEvent (some (id, b.clock))) v := by
    refine ⟨fun e he => ?_, hfollows.ahead, hfollows.readable⟩
    obtain ⟨x, hx, hxid, hd⟩ := hfollows.handled e he
    refine ⟨x, hx, hxid, ?_⟩
    rcases hd with hd | ⟨hclosed, -⟩
    · exact .inl hd
    · refine .inr ⟨hclosed, fun t ht => ?_⟩
      -- the event just taken is not closed
      have hsame : id = e.id := congrArg Prod.fst (Option.some.inj ht)
      obtain rfl : row = x := Table.eq_of_id hrow hx (by rw [show Keyed.id row = id from hid, hsame]; exact hxid.symm)
      rw [hprocessing] at hclosed
      cases hclosed
  obtain ⟨y, hy, hxy⟩ := hu.2.2 row hrow
  refine ⟨⟨hpast.others hu (.inr rfl), ?_⟩, .refl, fun c hc => (h.copies c hc).path hu.1,
    fun c hc => (h.orders c hc).path hu.1, rfl, .inr rfl⟩
  rintro p hp
  obtain rfl := Option.some.inj hp
  exact ⟨y, hy, hxy.id.trans hid⟩

theorem inboxOf_inbox (past rest : List WebhookEvent) : Inbox (inboxOf past rest) where
  contract := fun _ => rfl
  able := fun x => (inboxSetting_able past rest x).loud
  asks := fun x => Setting.reconcileAccount_keeps (inboxSetting_able past rest x)
    (inboxOf_stamps past rest x) (fun _ h => h)
  fault := fun _ => trivial
  leave := by
    rintro x g m b v h
    have hpath : Path (inboxScope g b) b v := by
      have c : Path (if x = none then inboxScope g b else handScope) b v := h.path
      split_ifs at c
      · exact c
      · exact Path.widen (handScope_le g b) c
    exact ⟨⟨h.base.1, by rintro _ ⟨⟩⟩, hpath, h.copies, h.orders, rfl, .inl rfl⟩
  failed := by
    rintro x g e b h
    obtain ⟨m, -⟩ := h.shows
    exact ⟨⟨h.base.1, by rintro _ ⟨⟩⟩, trivial, m.setEvent none, rfl, .inl rfl⟩
  take := fun g b e e' h => .inl h
  exhaust := fun g b e e' h => .inr (.inl h)
  finish := by
    intro id t g m b v h e he e' hid hended
    have hpath : Path handScope b v := h.path
    obtain ⟨row, hrow, hrid⟩ := h.base.2 _ rfl
    -- nothing was written of the events, so the row is the one the segment started with
    obtain rfl : row = e := Table.eq_of_id (Path.event_still hpath hrow) he (hrid.trans hid.symm)
    refine .inr (.inr ⟨⟨t, ?_⟩, hrow, hended⟩)
    rw [hid]
    exact h.shows.2.resolve_left (by simp)
  taken := fun h hc => inboxOf_taken h hc

theorem inboxOf_serves (past rest : List WebhookEvent) : Serves (inboxOf past rest) where
  toInbox := inboxOf_inbox past rest
  sweeps := Setting.reconcileStale_keeps (inboxSetting_able past rest none)
    (inboxOf_stamps past rest none) (fun _ h => h)
  dues := Setting.processDue_keeps (inboxSetting_able past rest none) (fun _ h => h)
  lapses := fun _ => trivial

/-- Every call but an operator's edit keeps to the inbox. -/
theorem inbox_waits (c : Call) (hc : ∀ catalog, c ≠ .edit catalog) (s : Store) :
    Pool.Waits inboxContract (inboxContract.rely Memory.empty) (fun _ _ _ _ => True)
      (Program.session c.serve Memory.empty s) Memory.empty s := by
  refine ⟨rfl, fun t _ _ => ?_⟩
  have h : (inboxOf [] [] none).Inside Memory.empty Memory.empty t t :=
    ⟨⟨follows_nil, by rintro _ ⟨⟩⟩, .refl, by simp [Memory.empty], by simp [Memory.empty], rfl,
      .inl rfl⟩
  exact ((inboxOf_serves [] []).serve_keeps c hc _ _ _ _ h).mono (fun _ _ _ _ _ => trivial)

/-- The event of a run whose session took it at a moment: it stands as it was taken, or was
written again after the window of the run. -/
def Held (moment : ℕ) (e : WebhookEvent) : Prop :=
  (e.status = .processing ∧ e.updatedAt = moment) ∨ moment + abandonedAfter < e.updatedAt

/-- What holds between the turns of the events and of what the sessions have in hand. -/
structure Orderly (hands : ℕ → Memory) (s : Store) : Prop where
  stamped : ∀ e ∈ s.events, e.updatedAt ≤ s.clock
  held : ∀ i id moment, (hands i).agenda.event = some (id, moment) →
    ∃ e ∈ s.events, e.id = id ∧ Held moment e
  apart : ∀ i j id moment moment', i ≠ j → (hands i).agenda.event = some (id, moment) →
    (hands j).agenda.event = some (id, moment') →
    moment + abandonedAfter < moment' ∨ moment' + abandonedAfter < moment

/-- A session that takes a turn has in hand no event written since it took it. -/
def InTime (g : Memory) (s : Store) : Prop :=
  ∀ id moment, g.agenda.event = some (id, moment) → ∀ e ∈ s.events, e.id = id →
    e.updatedAt = moment

section Turn
variable {hands : ℕ → Memory} {i j : ℕ} {e y : WebhookEvent}

/-- The event of a run that goes on is as it was when it was taken. -/
theorem Orderly.processing (h : Orderly hands s) (hi : InTime (hands i) s) {moment : ℕ}
    (he : e ∈ s.events) (hx : (hands i).agenda.event = some (e.id, moment)) :
    e.status = .processing := by
  obtain ⟨x, hmem, hid, hx'⟩ := h.held i e.id moment hx
  obtain rfl : x = e := Table.eq_of_id hmem he hid
  rcases hx' with ⟨hp, -⟩ | hlt
  · exact hp
  · have := hi _ _ hx x he rfl
    omega

theorem Orderly.onward (h : Orderly hands s) (hi : InTime (hands i) s)
    (w : Worked (hands i) s e y) : Onward e y := by
  induction w with
  | refl => exact .refl e
  | tail _ w ih =>
    refine ih.trans ?_
    rcases w with w | w | ⟨⟨t, ht⟩, hmem, w⟩
    · exact w.onward
    · exact w.onward
    · exact w.onward (h.processing hi hmem ht)

theorem Orderly.written (h : Orderly hands s) (he : e ∈ s.events) (w : Worked (hands i) s e y) :
    y.updatedAt ≤ s.clock := by
  cases w with
  | refl => exact h.stamped e he
  | tail _ w => exact (rewritten_write w).updatedAt.le

/-- Whoever takes an event another run has in hand does so after its window. -/
theorem Held.claimed {moment : ℕ} (hh : Held moment e) (hle : e.updatedAt ≤ s.clock)
    (htake : Webhook.takeable s.clock e = true) : moment + abandonedAfter < s.clock := by
  rcases hh with ⟨hp, ht⟩ | hlt
  · simp only [Webhook.takeable, Webhook.abandoned, hp, Bool.or_eq_true, Bool.and_eq_true,
      beq_iff_eq, decide_eq_true_eq] at htake
    rcases htake with (h₁ | h₁) | h₁
    · cases h₁
    · cases h₁
    · omega
  · omega

/-- What another session writes of an event leaves the run that has it in hand. -/
theorem Orderly.held_write (h : Orderly hands s) (hi : InTime (hands i) s) (hij : i ≠ j) {moment : ℕ}
    (he : e ∈ s.events) (hj : (hands j).agenda.event = some (e.id, moment)) (hh : Held moment e)
    (w : Worked (hands i) s e y) : Held moment y := by
  induction w with
  | refl => exact hh
  | @tail x z wx w ih =>
    refine .inr ?_
    rw [(rewritten_write w).updatedAt]
    rcases w with w | w | ⟨⟨t, ht⟩, hmem, w⟩
    · exact ih.claimed (h.written he wx) w.takeable
    · refine ih.claimed (h.written he wx) ?_
      simp [Webhook.takeable, w.processing, w.abandoned]
    · -- a run that ends in time is the later one of the two
      have hid : x.id = e.id := (h.onward hi wx).id
      have ht' := hi _ _ ht x hmem rfl
      have hle := h.stamped x hmem
      rcases h.apart i j e.id t moment hij (hid ▸ ht) hj with hlt | hlt
      · obtain rfl : x = e := Table.eq_of_id hmem he hid
        rcases hh with ⟨-, hm⟩ | hm <;> omega
      · omega

/-- A turn in time leaves what the others rely on. -/
theorem Orderly.relied (h : Orderly hands s) (hi : InTime (hands i) s)
    (hg : inboxContract.guar (hands i) s g t) (m : Memory) : inboxContract.rely m s t := by
  obtain ⟨hpath, hcatalog, hrows, -, -⟩ := hg
  refine ⟨hpath, hcatalog, fun e he => ?_⟩
  obtain ⟨y, hy, -, w⟩ := hrows e he
  exact ⟨y, hy, h.onward hi w⟩

/-- A turn in time leaves the inbox in order. -/
theorem Orderly.turn (h : Orderly hands s) (hi : InTime (hands i) s)
    (hg : inboxContract.guar (hands i) s g t) : Orderly (Function.update hands i g) t := by
  obtain ⟨hpath, -, hrows, hnew, hhands⟩ := hg
  have hclock := Path.clock_le hpath
  -- a row is new, or what the turn made of one that was there
  have hcases : ∀ y ∈ t.events, y.updatedAt = s.clock ∨ ∃ e ∈ s.events, Worked (hands i) s e y := by
    intro y hy
    by_cases hl : s.events.Lacks y
    · exact .inl (hnew y hy hl)
    · simp only [Table.Lacks, not_forall, not_not] at hl
      obtain ⟨e, he, hid⟩ := hl
      obtain ⟨z, hz, hzid, w⟩ := hrows e he
      obtain rfl : z = y := Table.eq_of_id hz hy (hzid.trans hid)
      exact .inr ⟨e, he, w⟩
  -- what the others have in hand stays held
  have hothers : ∀ j id moment, i ≠ j → (hands j).agenda.event = some (id, moment) →
      ∃ e ∈ t.events, e.id = id ∧ Held moment e := by
    intro j id moment hij hj
    obtain ⟨e, he, rfl, hh⟩ := h.held j id moment hj
    obtain ⟨y, hy, hid, w⟩ := hrows e he
    exact ⟨y, hy, hid, h.held_write hi hij he hj hh w⟩
  -- a run taken in the turn starts after the window of the others
  have hafter : ∀ j id moment moment', i ≠ j → g.agenda.event = some (id, moment) →
      (hands j).agenda.event = some (id, moment') →
      moment' + abandonedAfter < moment ∨ moment + abandonedAfter < moment' := by
    intro j id moment moment' hij hg hj
    rcases hhands with hnone | ⟨hsame, -⟩ | ⟨id', hid', hc⟩
    · rw [hnone] at hg
      cases hg
    · exact (h.apart i j id moment moment' hij (hsame ▸ hg) hj).symm
    · obtain ⟨rfl, rfl⟩ := Prod.mk.inj (Option.some.inj (hid'.symm.trans hg))
      obtain ⟨e, he, hide, hh⟩ := h.held j _ moment' hj
      obtain ⟨y, w, htake⟩ := hc.from' e he hide
      exact .inl ((h.held_write hi hij he (hide ▸ hj) hh w).claimed (h.written he w) htake)
  refine ⟨fun y hy => ?_, fun j id moment hj => ?_, ?_⟩
  · rcases hcases y hy with hc | ⟨e, he, w⟩
    · exact hc.trans_le hclock
    · exact (h.written he w).trans hclock
  · by_cases hij : j = i
    · subst hij
      rw [Function.update_self] at hj
      rcases hhands with hnone | ⟨hsame, hstill⟩ | ⟨id', hid', hc⟩
      · rw [hnone] at hj
        cases hj
      · obtain ⟨e, he, hide, hh⟩ := h.held j id moment (hsame ▸ hj)
        exact ⟨e, hstill e he, hide, hh⟩
      · obtain ⟨rfl, rfl⟩ := Prod.mk.inj (Option.some.inj (hid'.symm.trans hj))
        obtain ⟨e, he, hide, hp, hu⟩ := hc.row
        exact ⟨e, he, hide, .inl ⟨hp, hu⟩⟩
    · rw [Function.update_of_ne hij] at hj
      exact hothers j id moment (Ne.symm hij) hj
  · intro j k id moment moment' hjk hj hk
    by_cases hji : j = i
    · subst hji
      rw [Function.update_self] at hj
      rw [Function.update_of_ne (Ne.symm hjk)] at hk
      exact (hafter k id moment moment' hjk hj hk).symm
    · rw [Function.update_of_ne hji] at hj
      by_cases hki : k = i
      · subst hki
        rw [Function.update_self] at hk
        exact hafter j id moment' moment (Ne.symm hji) hk hj
      · rw [Function.update_of_ne hki] at hk
        exact h.apart j k id moment moment' hjk hj hk

end Turn

/-- What a session of a pool has in hand. -/
def inHand (q : Sessions) (i : ℕ) : Option (ℕ × ℕ) :=
  (q.sessions[i]?.bind Outcome.memory?).bind (·.agenda.event)

/-- The session that takes a turn is not in a run of an event written since it took it. -/
def StillHeld (q : Sessions) (i : ℕ) (_ : Sessions) : Prop :=
  ∀ x ∈ inHand q i, ∀ e ∈ q.store.events, e.id = x.1 → e.updatedAt = x.2

instance (q : Sessions) (i : ℕ) (r : Sessions) : Decidable (StillHeld q i r) := by
  unfold StillHeld
  infer_instance

/-- What every session of the inbox runs under. -/
abbrev inboxContracts : ℕ → Contract Memory Memory Store := fun _ => inboxContract

variable {hands : ℕ → Memory} {i j : ℕ} {q r : Sessions}

theorem Shown.inTime (hs : Pool.Shown inboxContracts hands q i) (ok : StillHeld q i r) :
    InTime (hands i) q.store := by
  obtain ⟨m, hm, rfl⟩ := hs
  intro id moment hx e he hid
  refine ok (id, moment) ?_ e he hid
  rw [inHand, hm, Option.bind_some, hx]
  rfl

theorem inbox_compatible : Pool.Compatible StillHeld inboxContracts
    (inboxContract.rely Memory.empty) Orderly where
  refl := fun _ _ _ => ⟨.refl, rfl, fun e he => ⟨e, he, .refl e⟩⟩
  trans := by
    rintro _ _ s t u ⟨hp, hc, h⟩ ⟨hp', hc', h'⟩
    refine ⟨hp.trans hp', hc'.trans hc, fun e he => ?_⟩
    obtain ⟨e₁, he₁, h₁⟩ := h e he
    obtain ⟨e₂, he₂, h₂⟩ := h' e₁ he₁
    exact ⟨e₂, he₂, h₁.trans h₂⟩
  since_refl := fun _ => ⟨.refl, rfl, fun e he => ⟨e, he, .refl e⟩⟩
  since_trans := by
    rintro s t u ⟨hp, hc, h⟩ ⟨hp', hc', h'⟩
    refine ⟨hp.trans hp', hc'.trans hc, fun e he => ?_⟩
    obtain ⟨e₁, he₁, h₁⟩ := h e he
    obtain ⟨e₂, he₂, h₂⟩ := h' e₁ he₁
    exact ⟨e₂, he₂, h₁.trans h₂⟩
  since_guar := fun ok h hs hg => h.relied (Shown.inTime hs ok) hg _
  kept := fun ok h hs hg => h.turn (Shown.inTime hs ok) hg
  others := fun ok h hs _ _ hg => h.relied (Shown.inTime hs ok) hg _

/-- Nothing of the inbox is stamped later than now. -/
def Stamped (s : Store) : Prop := ∀ e ∈ s.events, e.updatedAt ≤ s.clock

theorem Stamped.orderly (h : Stamped s) : Orderly (fun _ => Memory.empty) s :=
  ⟨h, by rintro _ _ _ ⟨⟩, by rintro _ _ _ _ _ _ ⟨⟩⟩

/-- In every run whose turns are in time the inbox is in order, and its sessions go on keeping
their contract. -/
theorem run_orderly {calls : List Call} {trace : List (Turn Store)}
    (hcalls : ∀ c ∈ calls, ∀ catalog, c ≠ .edit catalog) (hs : Stamped s)
    (run : Pool.Run StillHeld (sessions calls s) trace q) :
    ∃ hands, Orderly hands q.store ∧ ∀ i o, q.sessions[i]? = some o →
      Pool.Waits inboxContract (inboxContract.rely Memory.empty) (fun _ _ _ _ => True) o
        (hands i) q.store := by
  obtain ⟨hands, -, h, hw⟩ := run.explained inbox_compatible hs.orderly fun i o hi => by
      obtain ⟨c, hc, rfl⟩ := List.mem_map.mp (List.mem_of_getElem? hi)
      exact inbox_waits c (hcalls c hc) s
  exact ⟨hands, h, hw⟩

/-- An event a pass came to is behind it. -/
theorem Follows.advance {e : WebhookEvent} (h : Follows past (e :: rest) g s)
    (he : ∃ y ∈ s.events, y.id = e.id ∧ (e.attempts < y.attempts ∨
      Webhook.closed y.status = true ∧ ∀ t, g.agenda.event ≠ some (e.id, t))) :
    Follows (e :: past) rest g s :=
  ⟨List.forall_mem_cons.mpr ⟨he, h.handled⟩, fun k hk => h.ahead k (List.mem_cons_of_mem _ hk),
    fun k hk => h.readable k (List.mem_cons_of_mem _ hk)⟩

theorem inboxOf_advance {e : WebhookEvent} (h : (inboxOf past (e :: rest) x).Inside g m s t)
    (he : ∃ y ∈ s.events, y.id = e.id ∧ (e.attempts < y.attempts ∨
      Webhook.closed y.status = true ∧ ∀ t, g.agenda.event ≠ some (e.id, t))) :
    (inboxOf (e :: past) rest x).Inside g m s t :=
  ⟨⟨h.base.1.advance he, h.base.2⟩, h.path, h.copies, h.orders, h.shows⟩

/-- How a pass goes on from an event it came to: with nothing left to write, and never stopped. -/
def GoesOn (past rest : List WebhookEvent) {α : Type} :
    Memory → Except Fault (α × Memory) → Store → Store → Prop :=
  ending (fun g p b v => (inboxOf past rest none).Inside g p.2 b v ∧ p.2.Clean)
    fun _ _ _ _ => False

/-- A retry pass handles an event it listed, whatever its run comes to. -/
theorem retryEvent_follows (G : Gateway) {e : WebhookEvent}
    (h : (inboxOf past (e :: rest) none).Inside g m b v) (hm : m.Clean) :
    (Webhook.retryEvent G e.id).Meets inboxContract (GoesOn (e :: past) rest) g m b v := by
  obtain ⟨row, hrow, hid, -, -, hle, hd⟩ := h.view.1.ahead e (List.mem_cons_self ..)
  have hclock : v.clock = b.clock := h.clock
  rw [Webhook.retryEvent, meets_bind]
  refine (inboxOf_inbox past (e :: rest)).claim_meets e.id h (fun hn => absurd hm hn) ?_ ?_
  · intro hnot m' v' u hm' hsame hu hin
    refine meets_ite.mpr ⟨fun _ => ⟨inboxOf_advance hin ?_, hm'⟩, fun hf => absurd rfl hf⟩
    obtain ⟨y, hy, hxy⟩ := hu.2.2 row (hsame ▸ hrow)
    refine ⟨y, hy, hxy.id.trans hid, ?_⟩
    rcases hd with hc | hlt | htake
    · obtain rfl := hxy.closed hc
      refine .inr ⟨hc, fun t ht => ?_⟩
      rw [show m'.agenda.event = none from hin.shows.1] at ht
      cases ht
    · exact .inl (hlt.trans_le hxy.attempts)
    · rw [hclock, hnot row hrow hid] at htake
      cases htake
  · intro r hr hrid _ m' v' u hclean htaken hu hin
    refine meets_ite.mpr ⟨fun hf => absurd hf (by simp), fun _ => ?_⟩
    obtain rfl : r = row := Table.eq_of_id hr hrow (hrid.trans hid.symm)
    obtain ⟨r', hr', ht⟩ := htaken
    obtain ⟨y, hy, hry⟩ := hu.2.2 r' hr'
    have hyid : y.id = e.id := hry.id.trans (ht.id.trans hid)
    have hlt : e.attempts < y.attempts := by
      have := hry.attempts
      have := ht.attempts
      omega
    have hrun := inboxOf_advance hin ⟨y, hy, hyid, .inl hlt⟩
    -- the call of the event is read as it was when it arrived
    obtain ⟨z, hz, hzid, hzi, hzp, -⟩ := hin.base.1.ahead e (List.mem_cons_self ..)
    obtain rfl : z = y := Table.eq_of_id hz hy (hzid.trans hyid.symm)
    obtain ⟨i, hi, answer, hread⟩ := hin.base.1.readable e (List.mem_cons_self ..)
    have hget : u.events.get e.id = some z := by
      rw [← hyid]
      exact Table.get_of_mem hy
    simp only [Webhook.eventOf, meets_bind, meets_query, ending_ok, hget, meets_require_some, hzi,
      hi, hzp, hread]
    cases answer with
    | none => exact (inboxOf_inbox (e :: past) rest).ignore_stopped hrun hclean
    | some event => exact (inboxOf_inbox (e :: past) rest).retryRun_stopped G i event hrun

/-- A retry pass handles every event it listed. -/
theorem retryEach_follows (G : Gateway) (rest : List WebhookEvent) :
    ∀ {past g m b v}, (inboxOf past rest none).Inside g m b v → m.Clean →
      (Webhook.retryEach G (rest.map (·.id))).Meets inboxContract
        (GoesOn (rest.reverse ++ past) []) g m b v := by
  induction rest with
  | nil => exact fun h hm => ⟨h, hm⟩
  | cons e rest ih =>
    intro past g m b v h hm
    rw [List.map_cons, Webhook.retryEach, List.reverse_cons, List.append_assoc]
    refine (retryEvent_follows G h hm).bind (fun g done m b v hk => ?_) (fun _ _ _ _ hf => hf)
    exact (ih hk.1 hk.2).bind (fun _ _ _ _ _ hk => hk) (fun _ _ _ _ hf => hf)

theorem stuck_takeable {moment : ℕ} {e : WebhookEvent} (h : Webhook.stuck moment e = true) :
    Webhook.takeable moment e = true := by
  simp only [Webhook.stuck, Bool.and_eq_true, Bool.or_eq_true, beq_iff_eq] at h
  rcases h.1 with hf | ⟨hr | hp, ha⟩
  · simp [Webhook.takeable, hf]
  · simp [Webhook.takeable, hr]
  · simp [Webhook.takeable, hp, ha]

/-- An event a pass would pick up is picked up by a later one, until it is taken or closed. -/
theorem Onward.stuck {moment later : ℕ} {e e' : WebhookEvent} (h : Onward e e')
    (hle : moment ≤ later) (hs : Webhook.stuck moment e = true) :
    Webhook.stuck later e' = true ∨ e.attempts < e'.attempts ∨
      Webhook.closed e'.status = true := by
  simp only [Webhook.stuck, Webhook.abandoned, Bool.and_eq_true, Bool.or_eq_true, beq_iff_eq,
    decide_eq_true_eq] at hs ⊢
  rcases h.moved with rfl | ⟨-, hlt⟩ | ⟨-, ha, hend⟩
  · exact .inl ⟨hs.1.imp_right fun h => ⟨h.1, h.2.trans_le hle⟩, hs.2⟩
  · exact .inr (.inl hlt)
  · rcases hend with hend | hend
    · exact .inr (.inr hend)
    · exact .inl ⟨.inl hend, ha ▸ hs.2⟩

/-- What a retry pass lists, as the rows it read. -/
def stuckRows (moment : ℕ) (s : Store) : List WebhookEvent :=
  ((s.events.select (Webhook.stuck moment)).insertionSort (fun a b => a.createdAt ≤ b.createdAt)).take
    Webhook.retryBatch

theorem mem_stuckRows {moment : ℕ} {e : WebhookEvent} (h : e ∈ stuckRows moment s) :
    e ∈ s.events ∧ Webhook.stuck moment e = true :=
  Table.mem_select.mp ((List.mem_insertionSort _).mp (List.mem_of_mem_take h))

theorem follows_stuckRows (hread : ∀ e ∈ stuckRows s.clock s, Readable s.catalog e) (g : Memory) :
    Follows [] (stuckRows s.clock s) g s := by
  refine ⟨by simp, fun e he => ?_, hread⟩
  obtain ⟨hmem, hstuck⟩ := mem_stuckRows he
  exact ⟨e, hmem, rfl, rfl, rfl, le_rfl, .inr (.inr (stuck_takeable hstuck))⟩

/-- How a retry pass ends: it handled everything it listed when it started. -/
def AllHandled (listed : List WebhookEvent) :
    Memory → Except Fault (Unit × Memory) → Store → Store → Prop :=
  ending (fun _ _ b _ => ∀ e ∈ listed, ∃ y ∈ b.events, y.id = e.id ∧
      (e.attempts < y.attempts ∨ Webhook.closed y.status = true))
    fun _ _ _ _ => False

theorem retryFailed_handles (G : Gateway) (hread : ∀ e ∈ stuckRows s.clock s, Readable s.catalog e) :
    (Call.retryFailed G).serve.Meets inboxContract (AllHandled (stuckRows s.clock s))
      Memory.empty Memory.empty s s := by
  have hin : (inboxOf [] (stuckRows s.clock s) none).Inside Memory.empty Memory.empty s s :=
    ⟨⟨follows_stuckRows hread _, by rintro _ ⟨⟩⟩, .refl, by simp [Memory.empty], by simp [Memory.empty], rfl,
      .inl rfl⟩
  have hclean : Memory.empty.Clean := fun _ hl => absurd hl List.not_mem_nil
  have heach := retryEach_follows G (stuckRows s.clock s) hin hclean
  simp only [Call.serve, Webhook.retryFailed, now, meets_bind, meets_query, ending_ok]
  refine Meets.mono heach ?_
  rintro g (e | ⟨a, m⟩) b v hk
  · exact hk.elim
  · intro e he
    obtain ⟨y, hy, hid, hd⟩ := hk.1.base.1.handled e (by simpa using he)
    exact ⟨y, hy, hid, hd.imp_right And.left⟩

/-- The session of a call that took no turn yet. -/
def NotBegun (c : Call) (q : Sessions) (i : ℕ) : Prop :=
  ∃ s, q.sessions[i]? = some (Program.session c.serve Memory.empty s)

theorem NotBegun.turn {c : Call} (h : NotBegun c q i) (taken : q.turn i = some r) :
    r.store = (c.serve Memory.empty q.store q.store).published q.store := by
  obtain ⟨s, hs⟩ := h
  obtain ⟨memory, view, ready, next, hget, -, rfl⟩ := Pool.turn_eq_some taken
  rw [hs] at hget
  obtain ⟨rfl, rfl, rfl, rfl⟩ := Outcome.pause.inj (Option.some.inj hget)
  rfl

/-- Closing the events whose last attempt died is one segment. -/
theorem closeExhausted_closes {e : WebhookEvent} (he : e ∈ s.events)
    (hp : e.status = .processing) (ha : Webhook.abandoned s.clock e = true)
    (hm : Webhook.maxAttempts ≤ e.attempts) :
    ∃ y ∈ ((Call.closeExhausted.serve Memory.empty s s).published s).events,
      y.id = e.id ∧ y.status = .failed ∧ y.attempts = e.attempts := by
  have hrow := Table.mem_modify_of_mem (p := fun e : WebhookEvent =>
      e.status == .processing && Webhook.abandoned s.clock e &&
        decide (Webhook.maxAttempts ≤ e.attempts))
    (f := fun e : WebhookEvent => { e with
      status := .failed
      errorCode := some "abandoned"
      errorMessage := some "the last attempt never finished"
      updatedAt := s.clock }) (fun _ => ⟨rfl, rfl⟩) he
  rw [if_pos (by simp [hp, ha, hm])] at hrow
  exact ⟨_, hrow, rfl, rfl, rfl⟩

/-- What an inbox made of its events, from one store of a run to a later one. -/
structure LosesNothing (q r : Sessions) : Prop where
  /-- An event stays, and one that is closed is not touched anymore. -/
  once : ∀ e ∈ q.store.events, ∃ e' ∈ r.store.events, e'.id = e.id ∧ e.attempts ≤ e'.attempts ∧
    (Webhook.closed e.status = true → e' = e)
  /-- An event that failed or was abandoned waits for the retry pass until it is taken once
  more or closed. -/
  waits : ∀ e ∈ q.store.events, Webhook.stuck q.store.clock e = true →
    ∃ e' ∈ r.store.events, e'.id = e.id ∧ (Webhook.stuck r.store.clock e' = true ∨
      e.attempts < e'.attempts ∨ Webhook.closed e'.status = true)
  /-- Only an event that is being processed is run. -/
  runs : ∀ i x, inHand r i = some x → (∀ r', StillHeld r i r') →
    ∃ e ∈ r.store.events, e.id = x.1 ∧ e.status = .processing
  /-- Two runs of one event overlap only where the first outlived the window. -/
  apart : ∀ i j id moment moment', i ≠ j → inHand r i = some (id, moment) →
    inHand r j = some (id, moment') →
    moment + abandonedAfter < moment' ∨ moment' + abandonedAfter < moment

theorem exists_inHand {id moment : ℕ} (h : inHand q i = some (id, moment)) :
    ∃ o m, q.sessions[i]? = some o ∧ o.memory? = some m ∧ m.agenda.event = some (id, moment) := by
  obtain ⟨m, hm, hx⟩ := Option.bind_eq_some_iff.mp h
  obtain ⟨o, ho, hmo⟩ := Option.bind_eq_some_iff.mp hm
  exact ⟨o, m, ho, hmo, hx⟩

theorem waits_hand {o : Outcome Memory Store Fault (Unit × Memory)} {m : Memory}
    {post : Memory → Except Fault (Unit × Memory) → Store → Store → Prop}
    {since : Store → Store → Prop} (h : Pool.Waits inboxContract since post o g s)
    (hm : o.memory? = some m) : g = m := by
  cases o with
  | done view result => cases hm
  | pause memory view ready next =>
    obtain rfl := Option.some.inj hm
    exact h.1

/-- A session that took no turn of a run is as it was when the run started. -/
theorem notBegun_run {ok : Sessions → ℕ → Sessions → Prop} {calls : List Call}
    {trace : List (Turn Store)} {c : Call} (run : Pool.Run ok (sessions calls s) trace q)
    (hc : calls[i]? = some c) (h : i ∉ trace.map Turn.who) : NotBegun c q i := by
  refine ⟨s, ?_⟩
  rw [run.untouched fun t ht hi => h (List.mem_map.mpr ⟨t, ht, hi⟩), sessions, List.getElem?_map, hc]
  rfl

/-- In every run whose turns are in time the inbox loses nothing and repeats nothing, an event
whose last attempt died is closed as failed by the pass that closes those, and a retry pass that
lists events whose calls can be read again raises nothing and, once it is over, handled every one
of them, whatever the others came to. -/
theorem inbox_loses_nothing {calls : List Call} {trace rest : List (Turn Store)}
    (hcalls : ∀ c ∈ calls, ∀ catalog, c ≠ .edit catalog) (hs : Stamped s)
    (run : Pool.Run StillHeld (sessions calls s) trace q) :
    (∀ r, Pool.Run StillHeld q rest r → LosesNothing q r) ∧
    (∀ i q', NotBegun .closeExhausted q i → q.turn i = some q' → ∀ e ∈ q.store.events,
      e.status = .processing → Webhook.abandoned q.store.clock e = true →
      Webhook.maxAttempts ≤ e.attempts →
      ∃ e' ∈ q'.store.events, e'.id = e.id ∧ e'.status = .failed ∧ e'.attempts = e.attempts) ∧
    (∀ i G q' r view result, NotBegun (.retryFailed G) q i → q.turn i = some q' →
      (∀ e ∈ q.store.events, e.id ∈ Webhook.stuckIds q.store.clock q.store →
        Readable q.store.catalog e) →
      Pool.Run StillHeld q' rest r → r.sessions[i]? = some (.done view result) →
      (∃ value, result = .ok value) ∧ ∀ e ∈ q.store.events,
        e.id ∈ Webhook.stuckIds q.store.clock q.store → ∃ e' ∈ r.store.events, e'.id = e.id ∧
          (e.attempts < e'.attempts ∨ Webhook.closed e'.status = true)) := by
  obtain ⟨hands, h, hw⟩ := run_orderly hcalls hs run
  refine ⟨fun r later => ?_, fun i q' hi taken e he hp ha hm => ?_,
    fun i G q' r view result hi taken hread later hdone => ?_⟩
  · obtain ⟨hands', h', hw'⟩ := run_orderly hcalls hs (run.append later)
    have hrely : inboxContract.rely Memory.empty q.store r.store :=
      later.since inbox_compatible h hw
    have hhand : ∀ {i id moment}, inHand r i = some (id, moment) →
        (hands' i).agenda.event = some (id, moment) := by
      intro i id moment hx
      obtain ⟨o, m, ho, hm, hx⟩ := exists_inHand hx
      rw [waits_hand (hw' i o ho) hm]
      exact hx
    refine ⟨fun e he => ?_, fun e he hstuck => ?_, fun i x hx hstill => ?_, ?_⟩
    · obtain ⟨y, hy, hxy⟩ := hrely.2.2 e he
      exact ⟨y, hy, hxy.id, hxy.attempts, hxy.closed⟩
    · obtain ⟨y, hy, hxy⟩ := hrely.2.2 e he
      exact ⟨y, hy, hxy.id, hxy.stuck (Path.clock_le hrely.1) hstuck⟩
    · obtain ⟨id, moment⟩ := x
      have hx' := hhand hx
      obtain ⟨e, he, rfl, -⟩ := h'.held i id moment hx'
      refine ⟨e, he, rfl, h'.processing (fun id' moment' hx'' => ?_) he hx'⟩
      obtain ⟨rfl, rfl⟩ := Prod.mk.inj (Option.some.inj (hx'.symm.trans hx''))
      exact hstill r _ hx
    · exact fun i j id moment moment' hij hi hj =>
        h'.apart i j id moment moment' hij (hhand hi) (hhand hj)
  · rw [hi.turn taken]
    exact closeExhausted_closes he hp ha hm
  · -- from its first turn on the pass keeps to what it listed there
    have hmeets : ∀ memory view ready next, q.sessions[i]? = some (.pause memory view ready next) →
        ready q.store = true → (next q.store).Meets inboxContract
          (AllHandled (stuckRows q.store.clock q.store)) (hands i) q.store := by
      intro memory view ready next hget _
      obtain ⟨s₀, hs₀⟩ := hi
      have hempty : hands i = Memory.empty := waits_hand (hw i _ hs₀) rfl
      rw [hs₀] at hget
      obtain ⟨rfl, rfl, rfl, rfl⟩ := Outcome.pause.inj (Option.some.inj hget)
      rw [hempty]
      exact retryFailed_handles G fun e he => hread e (mem_stuckRows he).1 (List.mem_map_of_mem he)
    have hshown : Pool.Shown inboxContracts hands q i := by
      obtain ⟨s₀, hs₀⟩ := hi
      exact ⟨Memory.empty, by rw [hs₀]; rfl, (hw i _ hs₀).1⟩
    have hstill : StillHeld q i q' := by
      obtain ⟨s₀, hs₀⟩ := hi
      intro x hx
      rw [inHand, hs₀] at hx
      cases hx
    let post : ℕ → Memory → Except Fault (Unit × Memory) → Store → Store → Prop :=
      fun j => if j = i then AllHandled (stuckRows q.store.clock q.store) else fun _ _ _ _ => True
    obtain ⟨hands', -, h', hw'⟩ := inbox_compatible.turn h
      (fun j o hj ho => show Pool.Waits _ _ (post j) o _ _ by
        dsimp only [post]
        rw [if_neg hj]
        exact hw j o ho) taken hstill hshown
      (by
        dsimp only [post]
        rw [if_pos rfl]
        exact hmeets)
    obtain ⟨hands'', -, -, hw''⟩ := later.explained inbox_compatible h' hw'
    have hend := hw'' i _ hdone
    dsimp only [post] at hend
    rw [if_pos rfl] at hend
    obtain ⟨base, hsince, hpost⟩ := hend
    cases result with
    | error e => exact hpost.elim
    | ok value =>
      refine ⟨⟨value, rfl⟩, fun e he hlisted => ?_⟩
      obtain ⟨e₀, he₀, hid⟩ := List.mem_map.mp hlisted
      obtain rfl : e₀ = e := Table.eq_of_id (mem_stuckRows he₀).1 he hid
      obtain ⟨x, hx, hxid, hd⟩ := hpost e₀ he₀
      obtain ⟨y, hy, hxy⟩ := hsince.2.2 x hx
      refine ⟨y, hy, hxy.id.trans hxid, ?_⟩
      rcases hd with hd | hd
      · exact .inl (hd.trans_le hxy.attempts)
      · exact .inr (hxy.closed hd ▸ hd)

namespace Shop

/-- A notice about the buyer. -/
def notice : ProviderEvent := ⟨some 77, some 1, none, [], none, none, none, none, none⟩

def call : InboundCall := ⟨none, 0, fun _ => .ok (some notice)⟩

/-- A gateway that answers at some moments and is silent at the others. -/
def answering (at' : ℕ → Bool) : Gateway where
  answer := fun _ _ moment => if at' moment then (0, .held []) else (0, .silent "timeout")
  hasSecret := fun _ => true
  queryable := fun _ => true
  eventStated := fun _ => false

def failed (id : ℕ) (payload : Payload) : WebhookEvent :=
  { Webhook.recorded integration id opening payload none id with status := .failed, attempts := 1 }

/-- Two events wait for the retry pass, and the call of the older one cannot be read anymore. -/
def waiting : Store :=
  { new (catalog []) with
    events := ⟨[failed 0 fun _ => .error .attributeError, failed 1 fun _ => .ok (some notice)], 2,
      by decide, by decide⟩ }

theorem stamped_new (benefits : List Benefit) : Stamped (new (catalog benefits)) := by
  simp [Stamped, new]

end Shop

/-- An event that failed is handled by the retry pass that lists it. -/
theorem inbox_loses_nothing_retried : ∃ q r : Sessions,
    (∃ e ∈ q.store.events, e.status = .failed ∧ e.id ∈ Webhook.stuckIds q.store.clock q.store) ∧
    ∀ e ∈ q.store.events, e.id ∈ Webhook.stuckIds q.store.clock q.store →
      ∃ e' ∈ r.store.events, e'.id = e.id ∧
        (e.attempts < e'.attempts ∨ Webhook.closed e'.status = true) := by
  let G := Shop.answering (Shop.opening < ·)
  let calls : List Call := [.receive G 5 Shop.call, .tick 1, .retryFailed G]
  have hrun : ((sessions calls (Shop.new (Shop.catalog []))).turns StillHeld [0, 0, 0, 0, 1]).any
      (fun q => decide ((∃ e ∈ q.store.events, e.status = .failed ∧
          e.id ∈ Webhook.stuckIds q.store.clock q.store) ∧
        (∀ e ∈ q.store.events, Readable q.store.catalog e) ∧
        (q.turn 2).any (fun q' => (q'.turns StillHeld [2, 2, 2, 2]).any
          fun r => (r.sessions[2]?.bind Outcome.result?).isSome) = true)) = true := by
    decide +kernel
  obtain ⟨q, hq, htest⟩ := (Option.any_eq_true _ _).mp hrun
  obtain ⟨hfailed, hread, hlater⟩ := of_decide_eq_true htest
  obtain ⟨q', taken, hq'⟩ := (Option.any_eq_true _ _).mp hlater
  obtain ⟨r, hr, hdone⟩ := (Option.any_eq_true _ _).mp hq'
  obtain ⟨trace, run, hwho⟩ := Pool.run_of_turns hq
  obtain ⟨rest, later, -⟩ := Pool.run_of_turns hr
  obtain ⟨result, hresult⟩ := Option.isSome_iff_exists.mp hdone
  obtain ⟨o, ho, hres⟩ := Option.bind_eq_some_iff.mp hresult
  cases o with
  | pause memory view ready next => cases hres
  | done view result =>
    obtain ⟨-, -, hpass⟩ := inbox_loses_nothing (by
      intro c hc catalog
      simp only [calls, List.mem_cons, List.not_mem_nil, or_false] at hc
      rcases hc with rfl | rfl | rfl <;> simp) (Shop.stamped_new []) run
    have hnew : NotBegun (.retryFailed G) q 2 := notBegun_run run rfl (by rw [hwho]; decide)
    exact ⟨q, r, hfailed, (hpass 2 G q' r view result hnew taken (fun e he _ => hread e he) later ho).2⟩

/-- A run that outlived the window fails an event that another run closed in the meantime; and a
pass that meets an event it cannot read leaves the ones behind it where they were. -/
theorem inbox_closed_fails : (¬∀ (calls : List Call) (s : Store) (trace rest : List (Turn Store))
    (q r : Sessions), (∀ c ∈ calls, ∀ catalog, c ≠ .edit catalog) → Stamped s →
    Pool.Run (fun _ _ _ => True) (sessions calls s) trace q →
    Pool.Run (fun _ _ _ => True) q rest r → ∀ e ∈ q.store.events, ∃ e' ∈ r.store.events,
      e'.id = e.id ∧ (Webhook.closed e.status = true → Webhook.closed e'.status = true)) ∧
    ∃ r : Sessions, (∃ rest, Pool.Run StillHeld
        (sessions [.retryFailed (Shop.answering fun _ => true)] Shop.waiting) rest r) ∧
      (∃ view error, r.sessions[0]? = some (.done view (.error error))) ∧
      ∃ e ∈ r.store.events, e.id ∈ Webhook.stuckIds Shop.opening Shop.waiting ∧
        Readable r.store.catalog e ∧ e.status = .failed ∧ e.attempts = 1 := by
  constructor
  · intro h
    let G := Shop.answering (· < Shop.opening + abandonedAfter + 2)
    let calls : List Call :=
      [.receive G 5 Shop.call, .tick (abandonedAfter + 1), .receive G 5 Shop.call, .tick 1]
    obtain ⟨trace, q, run, hclosed, hlater⟩ := Pool.exists_run (fun _ _ _ => True)
      (sessions calls (Shop.new (Shop.catalog []))) [0, 0, 1, 2, 2, 2, 2]
      (fun q => (∃ e ∈ q.store.events, Webhook.closed e.status = true) ∧
        (q.turns (fun _ _ _ => True) [3, 0, 0]).any
          (fun r => decide (∀ e ∈ r.store.events, Webhook.closed e.status = false)) = true)
      (by decide +kernel)
    obtain ⟨rest, r, later, hfailed⟩ := Pool.exists_run _ q _ _ hlater
    obtain ⟨e, he, hc⟩ := hclosed
    obtain ⟨e', he', -, hc'⟩ := h calls _ trace rest q r (by
      intro c hc catalog
      simp only [calls, List.mem_cons, List.not_mem_nil, or_false] at hc
      rcases hc with rfl | rfl | rfl | rfl <;> simp) (Shop.stamped_new []) run later e he
    have := hfailed e' he'
    rw [hc' hc] at this
    cases this
  · obtain ⟨rest, r, run, hended, hleft⟩ := Pool.exists_run StillHeld
      (sessions [.retryFailed (Shop.answering fun _ => true)] Shop.waiting) [0, 0]
      (fun r => (r.sessions[0]?.bind Outcome.result?).any (fun result => !result.toBool) = true ∧
        ∃ e ∈ r.store.events, e.id ∈ Webhook.stuckIds Shop.opening Shop.waiting ∧
          Readable r.store.catalog e ∧ e.status = .failed ∧ e.attempts = 1) (by decide +kernel)
    refine ⟨r, ⟨rest, run⟩, ?_, hleft⟩
    obtain ⟨result, hresult, hno⟩ := (Option.any_eq_true _ _).mp hended
    obtain ⟨o, ho, hres⟩ := Option.bind_eq_some_iff.mp hresult
    cases o with
    | pause memory view ready next => cases hres
    | done view result' =>
      obtain rfl := Option.some.inj hres
      cases result' with
      | ok value => cases hno
      | error error => exact ⟨view, error, ho⟩

end FastKit
