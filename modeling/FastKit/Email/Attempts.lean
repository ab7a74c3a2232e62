import FastKit.Email.Queue

/-! # Attempts and holds

What one step does to a row says what a run does to it: a row takes one attempt each time it
is taken, and a sender that lost its claim lost it more than an abandonment window ago.
-/

namespace FastKit.Email
open Transaction Transaction.Program

/-- What one step of a session does to a row. -/
inductive Moved (moment : ℕ) (m : Memory) (row : OutboundEmail) : OutboundEmail → Prop where
  | still : Moved moment m row row
  | taken (waits : row.status = .pending) : Moved moment m row (taken moment row)
  | wrote {hold : Hold} {record now : OutboundEmail} (held : m.held = some hold)
      (loaded : m.record = some record) (same : row.id = record.id) (became : Became record now) :
      Moved moment m row (OutboundEmail.write record now moment row)
  | swept (gone : stranded moment row = true) : Moved moment m row (reclaimed moment row)

variable {m m' : Memory} {s t : Store} {moment : ℕ} {row row' : OutboundEmail}

theorem Moved.id (h : Moved moment m row row') : row'.id = row.id := by
  cases h with
  | still | taken | wrote => rfl
  | swept => exact (still_reclaimed moment row).1

/-- Every row of a step is one that was there, moved, or a message written down new. -/
theorem Sends.cases (h : Sends m s m' t) : ∀ row' ∈ t.emails,
    (∃ row ∈ s.emails, Moved s.clock m row row') ∨ ((∀ row ∈ s.emails, row.id ≠ row'.id) ∧
      row'.attempts = 0 ∧ (row'.status = .pending ∨ row'.status = .refused) ∧
      row'.updatedAt = s.clock) := by
  intro row' hrow
  cases h with
  | rest | loaded | lost | ticked => exact .inl ⟨row', hrow, .still⟩
  | queued inserted unread waits stamped =>
    rcases (Table.mem_insert inserted).mp hrow with hrow | rfl
    · exact .inl ⟨row', hrow, .still⟩
    · exact .inr ⟨fun a ha => ((Table.insert_eq_some inserted).2.2.1 a ha).1, unread, waits, stamped⟩
  | claimed found waits =>
    obtain ⟨a, ha, rfl⟩ := (Table.mem_modify (still_taken _)).mp hrow
    refine .inl ⟨a, ha, ?_⟩
    split_ifs with hid
    · obtain rfl := Table.eq_of_id ha found (beq_iff_eq.mp hid)
      exact .taken waits
    · exact .still
  | wrote became =>
    obtain ⟨a, ha, rfl⟩ := (Table.mem_modify (still_write _ _ _)).mp hrow
    refine .inl ⟨a, ha, ?_⟩
    split_ifs with hid
    · exact .wrote rfl rfl (beq_iff_eq.mp hid) became
    · exact .still
  | swept =>
    obtain ⟨a, ha, rfl⟩ := (Table.mem_modify (still_reclaimed _)).mp hrow
    refine .inl ⟨a, ha, ?_⟩
    split_ifs with hid
    · exact .swept hid
    · exact .still

/-- A message stays in the queue. -/
theorem Sends.kept (h : Sends m s m' t) : ∀ row ∈ s.emails, ∃ row' ∈ t.emails, row'.id = row.id := by
  intro row hrow
  cases h with
  | rest | loaded | lost | ticked => exact ⟨row, hrow, rfl⟩
  | queued inserted => exact ⟨row, (Table.mem_insert inserted).mpr (.inl hrow), rfl⟩
  | claimed =>
    exact Table.exists_modify (still_taken _) (fun a b => b.id = a.id) (fun _ => rfl)
      (fun _ => rfl) hrow
  | wrote =>
    exact Table.exists_modify (still_write _ _ _) (fun a b => b.id = a.id) (fun _ => rfl)
      (fun _ => rfl) hrow
  | swept =>
    exact Table.exists_modify (still_reclaimed _) (fun a b => b.id = a.id)
      (fun a => (still_reclaimed _ a).1) (fun _ => rfl) hrow

theorem Sends.clock (h : Sends m s m' t) : s.clock ≤ t.clock := by
  cases h with
  | ticked duration => exact Nat.le_add_right _ _
  | _ => exact le_rfl

/-- The message was waiting before the turn and is being sent after it. -/
def Taken (id : ℕ) (turn : Turn Store) : Bool :=
  (turn.before.emails.get id).any (·.status == .pending) &&
    (turn.after.emails.get id).any (·.status == .sending)

/-- The attempts of a message, none where it is not written down. -/
def attemptsOf (id : ℕ) (s : Store) : ℕ := ((s.emails.get id).map (·.attempts)).getD 0

/-- A row takes an attempt exactly where it is taken. -/
theorem Moved.attempts (h : Moved moment m row row') : row'.attempts = row.attempts +
    if row.status = .pending ∧ row'.status = .sending then 1 else 0 := by
  cases h with
  | still =>
    rw [if_neg]
    · rfl
    · rintro ⟨hp, hs⟩
      rw [hp] at hs
      cases hs
  | taken waits => rw [if_pos ⟨waits, rfl⟩]; rfl
  | @wrote hold record now held loaded same became =>
    rw [if_neg]
    · rfl
    · rintro ⟨hp, hs⟩
      simp only [OutboundEmail.write, changed] at hs
      split_ifs at hs
      · rw [hp] at hs
        cases hs
      · rcases became with h | h | ⟨h, -⟩ | ⟨h, -⟩ <;> rw [h] at hs <;> cases hs
  | swept gone =>
    rw [if_neg]
    · unfold reclaimed
      split_ifs <;> rfl
    · rintro ⟨hp, -⟩
      simp [stranded, hp] at gone

theorem Sends.attempts (h : Sends m s m' t) (who id : ℕ) :
    attemptsOf id t = attemptsOf id s + if Taken id ⟨who, s, t⟩ = true then 1 else 0 := by
  simp only [attemptsOf, Taken, Bool.and_eq_true]
  cases ht : t.emails.get id with
  | none =>
    cases hs : s.emails.get id with
    | none => simp
    | some row =>
      obtain ⟨row', hrow', hid⟩ := h.kept row (Table.mem_of_get hs)
      have := Table.get_of_mem hrow'
      rw [show Keyed.id row' = id from hid.trans (Table.id_of_get hs), ht] at this
      cases this
  | some row' =>
    have hid' : row'.id = id := Table.id_of_get ht
    rcases h.cases row' (Table.mem_of_get ht) with ⟨row, hrow, hm⟩ | ⟨hnew, hzero, -⟩
    · have hs : s.emails.get id = some row :=
        Table.get_eq_some_iff.mpr ⟨hrow, hm.id.symm.trans hid'⟩
      simp only [hs, Option.map_some, Option.getD_some, Option.any_some, beq_iff_eq]
      exact hm.attempts
    · have hs : s.emails.get id = none := by
        cases hs : s.emails.get id with
        | none => rfl
        | some row => exact absurd ((Table.id_of_get hs).trans hid'.symm) (hnew row (Table.mem_of_get hs))
      simp [hs, hzero]

/-- What holds of the rows: one that waits has attempts left, and nothing is stamped ahead. -/
structure Sound (s : Store) : Prop where
  waits : ∀ row ∈ s.emails, row.status = .pending → row.attempts < maxAttempts
  spent : ∀ row ∈ s.emails, row.attempts ≤ maxAttempts
  stamped : ∀ row ∈ s.emails, row.updatedAt ≤ s.clock

/-- The message is still the sender's. -/
def InHand (s : Store) (hold : Hold) : Prop :=
  ∃ row ∈ s.emails.get hold.message, row.status = .sending ∧ row.updatedAt = hold.moment

def holding (q : Sessions) (i : ℕ) : Option Hold := (q.memory i).bind Memory.held

instance (s : Store) (hold : Hold) : Decidable (InHand s hold) :=
  decidable_of_iff ((s.emails.get hold.message).any
    (fun row => row.status == .sending && row.updatedAt == hold.moment) = true) (by
      simp [InHand, Option.any_eq_true])

/-- A session goes on only with a message that is still its own. -/
def Unreclaimed (q : Sessions) (i : ℕ) (_ : Sessions) : Prop :=
  ∀ hold ∈ holding q i, InHand q.store hold

instance (q : Sessions) (i : ℕ) (r : Sessions) : Decidable (Unreclaimed q i r) := by
  unfold Unreclaimed
  infer_instance

/-- A message a sender has in hand is still as it took it, or was taken back a window later. -/
def Outlived (hold : Hold) (row : OutboundEmail) : Prop :=
  hold.moment + abandonedAfter < row.updatedAt ∨
    (row.status = .sending ∧ row.updatedAt = hold.moment ∧ row.attempts = hold.attempt)

/-- What a session has in hand, and what it loaded of it. -/
structure Tracked (s : Store) (m : Memory) : Prop where
  present : ∀ hold ∈ m.held, ∃ row ∈ s.emails, row.id = hold.message
  held : ∀ hold ∈ m.held, ∀ row ∈ s.emails, row.id = hold.message → Outlived hold row
  loaded : ∀ record ∈ m.record, ∃ hold ∈ m.held, record.id = hold.message ∧
    record.attempts = hold.attempt ∧ record.status = .sending

/-- Two claims of one message are more than a window apart. -/
def Distant (hold hold' : Hold) : Prop :=
  hold.message = hold'.message →
    hold.moment + abandonedAfter < hold'.moment ∨ hold'.moment + abandonedAfter < hold.moment

structure Orderly (q : Sessions) : Prop where
  sound : Sound q.store
  tracked : ∀ i m, q.memory i = some m → Tracked q.store m
  distant : ∀ i j, i ≠ j → ∀ hold ∈ holding q i, ∀ hold' ∈ holding q j, Distant hold hold'

/-- A row that is in hand is as its sender took it. -/
theorem Outlived.inHand {hold : Hold} (h : Outlived hold row) (hs : row.updatedAt = hold.moment) :
    row.status = .sending ∧ row.attempts = hold.attempt := by
  rcases h with h | ⟨hst, -, ha⟩
  · omega
  · exact ⟨hst, ha⟩

/-- What one session has in hand after a step of another. -/
theorem Outlived.moved {hold : Hold} (h : Outlived hold row) (hm : Moved moment m row row')
    (hle : row.updatedAt ≤ moment) (hd : ∀ hold' ∈ m.held, ∀ record ∈ m.record, row.id = record.id →
      row.updatedAt = hold'.moment ∧ hold.moment ≠ hold'.moment) : Outlived hold row' := by
  cases hm with
  | still => exact h
  | taken waits =>
    rcases h with h | ⟨hs, -⟩
    · exact .inl (lt_of_lt_of_le h hle)
    · rw [waits] at hs
      cases hs
  | @wrote hold' record now held loaded same became =>
    obtain ⟨hu, hne⟩ := hd hold' held record loaded same
    rcases h with h | ⟨-, hu', -⟩
    · refine .inl ?_
      simp only [OutboundEmail.write]
      split_ifs <;> omega
    · exact absurd (hu'.symm.trans hu) hne
  | swept gone =>
    simp only [stranded, Bool.and_eq_true, decide_eq_true_eq] at gone
    refine .inl ?_
    have : (reclaimed moment row).updatedAt = moment := by
      unfold reclaimed
      split_ifs <;> rfl
    rcases h with h | ⟨-, hu, -⟩ <;> omega

/-- What a dialled message becomes, where it was still its sender's. -/
theorem wrote_status {record now : OutboundEmail} (became : Became record now)
    (hr : record.status = .sending) :
    (OutboundEmail.write record now moment row).status = now.status := by
  simp only [OutboundEmail.write, changed]
  split_ifs with heq
  · exfalso
    rw [hr] at heq
    rcases became with h | h | ⟨h, -⟩ | ⟨h, -⟩ <;> rw [h] at heq <;> cases heq
  · rfl

theorem Sound.moved (hs : Sound s) (hrow : row ∈ s.emails) (hm : Moved s.clock m row row')
    (hw : ∀ record ∈ m.record, row.id = record.id →
      record.attempts = row.attempts ∧ record.status = .sending) :
    (row'.status = .pending → row'.attempts < maxAttempts) ∧ row'.attempts ≤ maxAttempts ∧
      row'.updatedAt ≤ s.clock := by
  have hspent := hs.spent row hrow
  have hstamped := hs.stamped row hrow
  cases hm with
  | still => exact ⟨hs.waits row hrow, hspent, hstamped⟩
  | taken waits => exact ⟨(by intro h; cases h), hs.waits row hrow waits, le_rfl⟩
  | @wrote hold record now held loaded same became =>
    obtain ⟨ha, hst⟩ := hw record loaded same
    refine ⟨fun h => ?_, hspent, ?_⟩
    · rw [wrote_status became hst] at h
      rcases became with h' | h' | ⟨h', -⟩ | ⟨-, hlt⟩
      · rw [h'] at h; cases h
      · rw [h'] at h; cases h
      · rw [h'] at h; cases h
      · exact ha ▸ hlt
    · simp only [OutboundEmail.write]
      split_ifs
      · exact hstamped
      · exact le_rfl
  | swept gone =>
    unfold reclaimed
    split_ifs with h
    · exact ⟨(by intro h; cases h), hspent, le_rfl⟩
    · exact ⟨fun _ => Nat.lt_of_not_le h, hspent, le_rfl⟩

theorem InHand.found {hold : Hold} (h : InHand s hold) (hrow : row ∈ s.emails)
    (hid : row.id = hold.message) : row.status = .sending ∧ row.updatedAt = hold.moment := by
  obtain ⟨row₀, hget, hst, hu⟩ := h
  obtain rfl : row₀ = row :=
    Table.eq_of_id (Table.mem_of_get hget) hrow ((Table.id_of_get hget).trans hid.symm)
  exact ⟨hst, hu⟩

/-- What a sender loaded of a message that is still its own is what the row says. -/
theorem Tracked.copy (h : Tracked s m) (hin : ∀ hold ∈ m.held, InHand s hold)
    {record : OutboundEmail} (hr : record ∈ m.record) (hrow : row ∈ s.emails)
    (same : row.id = record.id) : ∃ hold ∈ m.held, hold.message = row.id ∧
      row.updatedAt = hold.moment ∧ record.attempts = row.attempts ∧ record.status = .sending := by
  obtain ⟨hold, hh, hmsg, hatt, hst⟩ := h.loaded record hr
  have hid : row.id = hold.message := same.trans hmsg
  have hu := ((hin hold hh).found hrow hid).2
  exact ⟨hold, hh, hid.symm, hu, hatt.trans ((h.held hold hh row hrow hid).inHand hu).2.symm, hst⟩

theorem Sound.step (hs : Sound s) (c : Sends m s m' t) (ht : Tracked s m)
    (hin : ∀ hold ∈ m.held, InHand s hold) : Sound t := by
  have hall : ∀ row' ∈ t.emails, (row'.status = .pending → row'.attempts < maxAttempts) ∧
      row'.attempts ≤ maxAttempts ∧ row'.updatedAt ≤ t.clock := by
    intro row' hrow'
    rcases c.cases row' hrow' with ⟨row, hrow, hm⟩ | ⟨-, hzero, hst, hu⟩
    · obtain ⟨hp, ha, hle⟩ := hs.moved hrow hm fun record hr same => by
        obtain ⟨_, _, _, _, hatt, hst⟩ := ht.copy hin hr hrow same
        exact ⟨hatt, hst⟩
      exact ⟨hp, ha, hle.trans c.clock⟩
    · refine ⟨fun _ => by rw [hzero]; decide, by rw [hzero]; decide, hu ▸ c.clock⟩
  exact ⟨fun row h => (hall row h).1, fun row h => (hall row h).2.1, fun row h => (hall row h).2.2⟩

/-- What one session has in hand after a step of another. -/
theorem Tracked.step {m₀ : Memory} (h : Tracked s m₀) (c : Sends m s m' t) (hs : Sound s)
    (hd : ∀ hold ∈ m₀.held, ∀ row ∈ s.emails, row.id = hold.message → ∀ hold' ∈ m.held,
      ∀ record ∈ m.record, row.id = record.id →
        row.updatedAt = hold'.moment ∧ hold.moment ≠ hold'.moment) : Tracked t m₀ := by
  refine ⟨fun hold hh => ?_, fun hold hh row' hrow' hid => ?_, h.loaded⟩
  · obtain ⟨row, hrow, hid⟩ := h.present hold hh
    obtain ⟨row', hrow', hid'⟩ := c.kept row hrow
    exact ⟨row', hrow', hid'.trans hid⟩
  · rcases c.cases row' hrow' with ⟨row, hrow, hm⟩ | ⟨hnew, -⟩
    · have hid₀ : row.id = hold.message := hm.id.symm.trans hid
      exact (h.held hold hh row hrow hid₀).moved hm (hs.stamped row hrow) (hd hold hh row hrow hid₀)
    · obtain ⟨row, hrow, hid₀⟩ := h.present hold hh
      exact absurd (hid₀.trans hid.symm) (hnew row hrow)

theorem tracked_empty (s : Store) : Tracked s Memory.empty :=
  ⟨by simp [Memory.empty], by simp [Memory.empty], by simp [Memory.empty]⟩

/-- What a session has in hand after its own step. -/
theorem Tracked.own (h : Tracked s m) (c : Sends m s m' t) (hs : Sound s)
    (hin : ∀ hold ∈ m.held, InHand s hold) : Tracked t m' := by
  have idle : Sends Memory.empty s Memory.empty t → Tracked t m := fun c =>
    h.step c hs (by simp [Memory.empty])
  cases c with
  | rest => exact idle (.rest _ _)
  | queued inserted unread waits stamped => exact idle (.queued inserted unread waits stamped)
  | swept => exact idle .swept
  | ticked duration => exact idle (.ticked duration)
  | wrote | lost => exact tracked_empty _
  | @claimed _ _ row found waits =>
    have hmem := Table.mem_modify_of_mem (p := (·.id == row.id)) (still_taken s.clock) found
    rw [if_pos (beq_self_eq_true _)] at hmem
    refine ⟨?_, ?_, by simp⟩
    · rintro hold ⟨⟩
      exact ⟨_, hmem, rfl⟩
    · rintro hold ⟨⟩ row' hrow' hid
      obtain rfl := Table.eq_of_id hrow' hmem hid
      exact .inr ⟨rfl, rfl, rfl⟩
  | @loaded hold s record found same =>
    refine ⟨h.present, h.held, ?_⟩
    rintro _ ⟨⟩
    obtain ⟨hst, hu⟩ := (hin hold rfl).found found same
    exact ⟨hold, rfl, same, ((h.held hold rfl record found same).inHand hu).2, hst⟩

/-- What a session takes in hand is what it had, or a message that waited. -/
theorem Sends.holds (c : Sends m s m' t) {hold : Hold} (hh : hold ∈ m'.held) :
    hold ∈ m.held ∨ (hold.moment = s.clock ∧
      ∃ row ∈ s.emails, row.id = hold.message ∧ row.status = .pending) := by
  cases c with
  | rest | queued | swept | ticked | loaded => exact .inl hh
  | wrote | lost => cases hh
  | @claimed _ _ row found waits =>
    obtain rfl := Option.some.inj hh
    exact .inr ⟨rfl, row, found, rfl, waits⟩

theorem holding_of_memory {q : Sessions} {i : ℕ} (h : q.memory i = some m) : holding q i = m.held := by
  rw [holding, h, Option.bind_some]

theorem exists_memory {q : Sessions} {i : ℕ} {hold : Hold} (h : hold ∈ holding q i) :
    ∃ m, q.memory i = some m ∧ hold ∈ m.held := Option.bind_eq_some_iff.mp h

/-- A turn of a session that goes on only with its own keeps the pool in order. -/
theorem Orderly.turn {q r : Sessions} {i : ℕ} (h : Orderly q) (ok : Unreclaimed q i r)
    {post : ℕ → Memory → Except Fault (Unit × Memory) → Store → Store → Prop}
    (turn : Pool.Stepped Sends post q i r) : Orderly r := by
  obtain ⟨m, hm, hstep⟩ := turn.step
  have hin : ∀ hold ∈ m.held, InHand q.store hold := fun hold hh =>
    ok hold (by rw [holding_of_memory hm]; exact hh)
  have hmine := h.tracked i m hm
  rcases hstep with ⟨view, result, hend, hsame, -⟩ | ⟨m', hm', c⟩
  · have hback : ∀ j k, r.memory j = some k → q.memory j = some k := fun j k hj =>
      turn.memory_ended hend hj
    refine ⟨hsame ▸ h.sound, fun j k hj => hsame ▸ h.tracked j k (hback j k hj), ?_⟩
    intro j k hjk hold hh hold' hh'
    obtain ⟨mj, hmj, hh⟩ := exists_memory hh
    obtain ⟨mk, hmk, hh'⟩ := exists_memory hh'
    exact h.distant j k hjk hold (by rw [holding_of_memory (hback _ _ hmj)]; exact hh) hold'
      (by rw [holding_of_memory (hback _ _ hmk)]; exact hh')
  · -- what another session has in hand is of another claim than what this one writes
    have hothers : ∀ j k, j ≠ i → q.memory j = some k → Tracked r.store k := by
      intro j k hji hj
      refine (h.tracked j k hj).step c h.sound fun hold hh row hrow hid hold' hh' record hr same => ?_
      obtain ⟨hold₀, hh₀, hmsg, hu, -⟩ := hmine.copy hin hr hrow same
      obtain rfl : hold' = hold₀ := Option.mem_unique hh' hh₀
      refine ⟨hu, fun heq => ?_⟩
      have := h.distant j i hji hold (by rw [holding_of_memory hj]; exact hh) hold'
        (by rw [holding_of_memory hm]; exact hh') (hid.symm.trans hmsg.symm)
      omega
    refine ⟨h.sound.step c hmine hin, ?_, ?_⟩
    · intro j k hj
      by_cases hji : j = i
      · rw [hji, hm'] at hj
        obtain rfl := Option.some.inj hj
        exact hmine.own c h.sound hin
      · exact hothers j k hji ((turn.memory_others hji).symm.trans hj)
    · -- a message another session has in hand is taken only a window after that one's claim
      have hnew : ∀ j, j ≠ i → ∀ hold ∈ m'.held, ∀ hold' ∈ holding q j, Distant hold hold' := by
        intro j hji hold hh hold' hh' hmsg
        rcases c.holds hh with hh | ⟨hmoment, row, hrow, hid, hpending⟩
        · exact h.distant i j (Ne.symm hji) hold (by rw [holding_of_memory hm]; exact hh) hold' hh' hmsg
        · obtain ⟨k, hk, hh'⟩ := exists_memory hh'
          rcases (h.tracked j k hk).held hold' hh' row hrow (hid.trans hmsg) with hlt | ⟨hst, -⟩
          · have := h.sound.stamped row hrow
            omega
          · rw [hpending] at hst
            cases hst
      intro j k hjk hold hh hold' hh'
      by_cases hji : j = i
      · have hki : k ≠ i := fun hki => hjk (hji.trans hki.symm)
        rw [hji, holding_of_memory hm'] at hh
        rw [holding, turn.memory_others hki] at hh'
        exact hnew k hki hold hh hold' hh'
      · rw [holding, turn.memory_others hji] at hh
        by_cases hki : k = i
        · rw [hki, holding_of_memory hm'] at hh'
          intro hmsg
          exact (hnew j hji hold' hh' hold hh hmsg.symm).symm
        · rw [holding, turn.memory_others hki] at hh'
          exact h.distant j k hjk hold hh hold' hh'

/-- A closed message is as it was after a turn of a session that goes on only with its own. -/
theorem Sends.closed (c : Sends m s m' t) (ht : Tracked s m) (hin : ∀ hold ∈ m.held, InHand s hold)
    (hrow : row ∈ s.emails) (hc : row.status.closed = true) : row ∈ t.emails := by
  obtain ⟨row', hrow', hid⟩ := c.kept row hrow
  rcases c.cases row' hrow' with ⟨row₀, hrow₀, hm⟩ | ⟨hnew, -⟩
  · obtain rfl : row₀ = row := Table.eq_of_id hrow₀ hrow (hm.id.symm.trans hid)
    cases hm with
    | still => exact hrow'
    | taken waits =>
      rw [waits] at hc
      cases hc
    | wrote held loaded same became =>
      obtain ⟨hold, hh, hmsg, -⟩ := ht.copy hin loaded hrow same
      rw [((hin hold hh).found hrow hmsg.symm).1] at hc
      cases hc
    | swept gone =>
      simp only [stranded, Bool.and_eq_true, beq_iff_eq] at gone
      rw [gone.1] at hc
      cases hc
  · exact absurd hid.symm (hnew row hrow)

theorem stepping_serve (calls : List Call) (s : Store) :
    Pool.Stepping (fun _ => Sends) (fun i g r b v => ∀ c ∈ calls[i]?, anew g r b v) (sessions calls s) :=
  Pool.stepping_sessions Call.serve (fun _ => Memory.empty) s calls (fun c _ t => serve_steps c _ t)

theorem memory_sessions {calls : List Call} {i : ℕ} (h : (sessions calls s).memory i = some m) :
    m = Memory.empty := by
  obtain ⟨o, ho, hm⟩ := Option.bind_eq_some_iff.mp h
  simp only [sessions, List.getElem?_map, Option.map_eq_some_iff] at ho
  obtain ⟨c, -, rfl⟩ := ho
  exact (Option.some.inj hm).symm

theorem orderly_start (calls : List Call) (hs : Sound s) : Orderly (sessions calls s) := by
  refine ⟨hs, fun i m hm => ?_, fun i j _ hold hh => ?_⟩
  · rw [memory_sessions hm]
    exact tracked_empty s
  · obtain ⟨m, hm, hheld⟩ := exists_memory hh
    rw [memory_sessions hm] at hheld
    cases hheld

theorem run_orderly {calls : List Call} {trace : List (Turn Store)} {q : Sessions} (hs : Sound s)
    (run : Pool.Run Unreclaimed (sessions calls s) trace q) : Orderly q :=
  run.invariant (stepping_serve calls s) (orderly_start calls hs) fun _ _ _ ok turn h => h.turn ok turn

/-- The attempts of a message are the turns that took it. -/
theorem run_attempts {ok : Sessions → ℕ → Sessions → Prop} {calls : List Call}
    {trace : List (Turn Store)} {q : Sessions} (run : Pool.Run ok (sessions calls s) trace q)
    (id : ℕ) : attemptsOf id q.store = attemptsOf id s + (trace.filter (Taken id)).length := by
  induction run with
  | start => rfl
  | @turn trace q r i past taken _ ih =>
    rw [List.filter_append, List.length_append, ← Nat.add_assoc, ← ih, List.filter_singleton]
    obtain ⟨m, -, hstep⟩ := (past.stepped (stepping_serve calls s) taken).step
    have hturn : attemptsOf id r.store = attemptsOf id q.store +
        if Taken id ⟨i, q.store, r.store⟩ = true then 1 else 0 := by
      rcases hstep with ⟨-, -, -, hsame, -⟩ | ⟨m', -, c⟩
      · rw [hsame]
        exact (Sends.rest m q.store).attempts i id
      · exact c.attempts i id
    rw [hturn]
    cases Taken id ⟨i, q.store, r.store⟩ <;> rfl

theorem attemptsOf_le (hs : Sound s) (id : ℕ) : attemptsOf id s ≤ maxAttempts := by
  unfold attemptsOf
  cases h : s.emails.get id with
  | none => exact Nat.zero_le _
  | some row => exact hs.spent row (Table.mem_of_get h)

/-- The calls whose first turn is a reclaim. -/
def Call.reclaims : Call → Bool
  | .reclaimAbandoned | .sendPendingEmails _ => true
  | _ => false

/-- The turn of a reclaim leaves every message a node left behind waiting or closed. -/
theorem turn_reclaim {ok : Sessions → ℕ → Sessions → Prop} {calls : List Call}
    {trace : List (Turn Store)} {q r : Sessions} (run : Pool.Run ok (sessions calls s) trace q) {i : ℕ}
    {c : Call} (hc : calls[i]? = some c) (hreclaims : c.reclaims = true)
    (hnew : ∀ t ∈ trace, t.who ≠ i) (taken : q.turn i = some r) : r.store = { q.store with
      emails := q.store.emails.modify (stranded q.store.clock) (reclaimed q.store.clock)
        (still_reclaimed _) } := by
  have hi : q.sessions[i]? = some (session c.serve Memory.empty s) := by
    rw [run.untouched hnew]
    simp [sessions, hc]
  obtain ⟨memory, view, ready, next, hget, -, rfl⟩ := Pool.turn_eq_some taken
  obtain ⟨rfl, rfl, rfl, rfl⟩ : memory = Memory.empty ∧ view = s ∧ ready = (fun _ => true) ∧
      next = fun t => c.serve Memory.empty t t := by
    simpa [session] using (hi.symm.trans hget).symm
  cases c with
  | reclaimAbandoned | sendPendingEmails => rfl
  | queue | processPending | tick => cases hreclaims

/-- In every run in which no sender goes on with a message that was taken back from it: a
message that waits has attempts left; a message is taken no more often than there are
attempts; two sessions that have one message in hand took it more than a window apart, and it
is not still the message of both; a closed message is not touched anymore; and a reclaim, of the
job or by itself, leaves every message that was left behind closed where its attempts ran out, and
waiting otherwise. -/
theorem queue_keeps_attempts {calls : List Call} {trace : List (Turn Store)} {q : Sessions}
    (hs : Sound s) (run : Pool.Run Unreclaimed (sessions calls s) trace q) :
    (∀ row ∈ q.store.emails, row.status = .pending → row.attempts < maxAttempts) ∧
    (∀ id, (trace.filter (Taken id)).length ≤ maxAttempts) ∧
    (∀ i j, i ≠ j → ∀ hold ∈ holding q i, ∀ hold' ∈ holding q j, hold.message = hold'.message →
      (hold.moment + abandonedAfter < hold'.moment ∨ hold'.moment + abandonedAfter < hold.moment) ∧
      ¬(InHand q.store hold ∧ InHand q.store hold')) ∧
    (∀ i r, q.turn i = some r → Unreclaimed q i r → ∀ row ∈ q.store.emails,
      row.status.closed = true → row ∈ r.store.emails) ∧
    ∀ i c r, calls[i]? = some c → c.reclaims = true → (∀ t ∈ trace, t.who ≠ i) →
      q.turn i = some r → ∀ row ∈ q.store.emails, ∃ row' ∈ r.store.emails, row'.id = row.id ∧
        (stranded q.store.clock row = true → row'.attempts = row.attempts ∧
          (maxAttempts ≤ row.attempts ∧ row'.status = .failed ∨
            row.attempts < maxAttempts ∧ row'.status = .pending)) ∧
        (stranded q.store.clock row = false → row' = row) := by
  have h := run_orderly hs run
  refine ⟨h.sound.waits, fun id => ?_, fun i j hij hold hh hold' hh' hmsg => ?_, ?_, ?_⟩
  · have := run_attempts run id
    have := attemptsOf_le h.sound id
    omega
  · have hd := h.distant i j hij hold hh hold' hh' hmsg
    refine ⟨hd, ?_⟩
    rintro ⟨⟨row, hget, -, hu⟩, row', hget', -, hu'⟩
    rw [hmsg] at hget
    obtain rfl : row = row' := Option.mem_unique hget hget'
    omega
  · intro i r taken ok row hrow hc
    obtain ⟨m, hm, hstep⟩ := (run.stepped (stepping_serve calls s) taken).step
    rcases hstep with ⟨-, -, -, hsame, -⟩ | ⟨m', -, c⟩
    · rw [hsame]
      exact hrow
    · refine c.closed (h.tracked i m hm) (fun hold hh => ok hold ?_) hrow hc
      rw [holding_of_memory hm]
      exact hh
  · intro i c r hc hreclaims hnew taken row hrow
    rw [turn_reclaim run hc hreclaims hnew taken]
    refine ⟨_, Table.mem_modify_of_mem (still_reclaimed _) hrow, ?_⟩
    split_ifs with hgone
    · refine ⟨(still_reclaimed _ row).1, fun _ => ?_, fun h => by rw [hgone] at h; cases h⟩
      unfold reclaimed
      split_ifs with hmax
      · exact ⟨rfl, .inl ⟨hmax, rfl⟩⟩
      · exact ⟨rfl, .inr ⟨Nat.lt_of_not_le hmax, rfl⟩⟩
    · exact ⟨rfl, fun h => absurd h hgone, fun _ => rfl⟩

namespace Desk

/-- A letter that was taken so often. -/
def letter (attempts : ℕ) : OutboundEmail where
  id := 0
  tenantId := none
  toAddress := "reader"
  replyTo := none
  subject := "welcome"
  template := "welcome"
  locale := "en"
  context := []
  status := .pending
  attempts := attempts
  errorCode := none
  errorMessage := none
  sentAt := none
  createdAt := 0
  updatedAt := 0

def queue (attempts : ℕ) : Store :=
  ⟨0, ⟨[letter attempts], 1, List.pairwise_singleton _ _, by simp [letter, Keyed.id]⟩, .empty, []⟩

theorem sound_queue {attempts : ℕ} (h : attempts < maxAttempts) : Sound (queue attempts) := by
  refine ⟨?_, ?_, ?_⟩ <;> intro row hrow <;> obtain rfl := List.mem_singleton.mp hrow
  · exact fun _ => h
  · exact Nat.le_of_lt h
  · exact le_rfl

def down : Relay := ⟨fun _ => .error (.other "ConnectionError" "refused"), fun _ => false⟩

end Desk

/-- A pass fails to send the last attempt of a letter, and closes it. -/
theorem queue_keeps_attempts_down : ∃ trace q,
    Pool.Run Unreclaimed (sessions [.processPending Desk.down] (Desk.queue 4)) trace q ∧
      (∃ row ∈ q.store.emails, row.status = .failed) ∧
      (trace.filter (Taken 0)).length ≤ maxAttempts := by
  obtain ⟨trace, q, run, hq⟩ := Pool.exists_run Unreclaimed
    (sessions [.processPending Desk.down] (Desk.queue 4)) [0, 0, 0, 0]
    (fun q => ∃ row ∈ q.store.emails, row.status = .failed) (by decide +kernel)
  exact ⟨trace, q, run, hq,
    (queue_keeps_attempts (Desk.sound_queue (by decide)) run).2.1 0⟩

/-- A sender whose node stood still for the window after it loaded its letter, while another
took the last attempt: it fails then by the attempts it loaded, and leaves the letter waiting
with none left. -/
theorem letter_waits_spent : ¬∀ (calls : List Call) (s : Store) (trace : List (Turn Store))
    (q : Sessions), Sound s → Pool.Run (fun _ _ _ => True) (sessions calls s) trace q →
    ∀ row ∈ q.store.emails, row.status = .pending → row.attempts < maxAttempts := by
  intro h
  obtain ⟨trace, q, run, row, hrow, hp, ha⟩ := Pool.exists_run (fun _ _ _ => True)
    (sessions [.processPending Desk.down, .tick (abandonedAfter + 1), .reclaimAbandoned,
      .processPending Desk.down] (Desk.queue 3)) [0, 0, 0, 1, 2, 3, 3, 0]
    (fun q => ∃ row ∈ q.store.emails, row.status = .pending ∧ row.attempts = maxAttempts)
    (by decide +kernel)
  exact absurd (h _ _ trace q (Desk.sound_queue (by decide)) run row hrow hp) (by omega)

end FastKit.Email
