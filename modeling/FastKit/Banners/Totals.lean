import FastKit.Services.Banners
import Mathlib.Data.List.Nodup

/-! # A banner's totals are its visitors

What a run adds to the totals of a banner is the views and the clicks it first met, each of one
visitor on one day, however the sessions take turns and whatever retention drops in between.
-/

namespace FastKit.Banners
open Transaction Transaction.Program

variable {c : Call} {g m m' : Memory} {s t u : Store} {b v : Store} {key : Key} {kind : BannerCountKind}
  {q r : Sessions} {i : ℕ} {calls : List Call} {trace : List (Turn Store)} {keys : List Key}

/-- What a segment of a session of the call does, by what the session was about to count. -/
inductive Counts (c : Call) : Memory → Store → Memory → Store → Prop where
  | rest (m : Memory) (s : Store) : Counts c m s m s
  | passed {m : Memory} {s : Store} : Counts c m s { m with asked := none } s
  | asked {m : Memory} {s : Store} {key : Key} (today : key.day = dateOf s.clock) :
      Counts c m s { m with asked := some (key, s.clock) } s
  | counted {m : Memory} {s : Store} {key : Key} {moment : ℕ} {row : BannerImpression}
      {t : Table BannerImpression} (looked : m.asked = some (key, moment))
      (written : insertImpression key s = some (row, t)) :
      Counts c m s { m with asked := none } { s with
        impressions := t
        banners := s.banners.modify (·.id == key.bannerId) (Banner.raised key.kind)
          (still_raised key.kind) }
  | deleted {m : Memory} {s : Store} (id : ℕ) : Counts c m s m { s with
      banners := s.banners.erase (·.id == id)
      impressions := s.impressions.erase (·.key.bannerId == id) }
  | doomed {m : Memory} {s : Store} {days size pages before : ℕ} (called : c = .discard days size pages)
      (past : m.before = before ∨ before = s.clock - days * Calendar.day) :
      Counts c m s (note before (Retention.page (·.createdAt < before) size s.impressions) m) s
  | dropped {m : Memory} {s : Store} : Counts c m s { m with doomed := [] } { s with
      impressions := s.impressions.erase (fun r => m.doomed.contains r.id) }
  | ticked {m : Memory} {s : Store} (duration : ℕ) :
      Counts c m s m { s with clock := s.clock + duration }

theorem settleCount_steps {brand : Option ℕ} {uuid : String} {who : Named} :
    (settleCount brand uuid who kind).Steps (Counts c) := by
  intro m s
  simp only [settleCount, meets_bind, meets_query, ending_ok]
  cases findByUuid uuid brand s with
  | none => trivial
  | some banner =>
    simp only [meets_require_some, meets_bind, meets_query, ending_ok]
    cases who s.clock with
    | error e => trivial
    | ok name =>
      cases name with
      | none => exact ⟨rfl, rfl⟩
      | some visitor =>
        simp only [pass, meets_bind, ending_ok, steps_yield, id_eq]
        refine ⟨.rest m s, fun t => ?_⟩
        simp only [count, meets_bind, meets_query, ending_ok]
        cases t.impressions.find (·.key == ⟨banner.id, kind, visitor, dateOf t.clock⟩) with
        | some row =>
          simp only [meets_bind, meets_pure, meets_remember, ending_ok, steps_publish]
          exact ⟨.passed, fun _ => ⟨rfl, rfl⟩⟩
        | none =>
          simp only [pass, meets_bind, meets_query, meets_remember, ending_ok, steps_yield, id_eq]
          refine ⟨.asked rfl, fun u => ?_⟩
          cases hwritten : insertImpression ⟨banner.id, kind, visitor, dateOf t.clock⟩ u with
          | none =>
            simp only [meets_bind, meets_pure, meets_remember, ending_ok, steps_publish]
            exact ⟨.passed, fun _ => ⟨rfl, rfl⟩⟩
          | some p =>
            simp only [meets_bind, meets_execute, meets_pure, meets_remember, ending_ok, steps_publish]
            exact ⟨.counted rfl hwritten, fun _ => ⟨rfl, rfl⟩⟩

theorem serve_steps (c : Call) : c.serve.Steps (Counts c) := by
  intro m s
  cases c with
  | settleCount => exact settleCount_steps m s
  | deleteBanner id =>
    simp only [Call.serve, deleteBanner, meets_bind, meets_execute, ending_ok, steps_publish]
    exact ⟨.deleted id, fun _ => ⟨rfl, rfl⟩⟩
  | discard days size pages =>
    have hdiscard : (discard days size pages).Meets (stepping (Counts (.discard days size pages)))
        anew m m s s := by
      refine meets_ite.mpr ⟨fun hdays => ?_, fun _ => ⟨rfl, rfl⟩⟩
      simp only [meets_bind, meets_query, ending_ok]
      -- the pages of one call are those of the moment it started from
      exact Retention.trimWhere_meets
        (fun m t => m.before = s.clock - days * Calendar.day ∨
          s.clock - days * Calendar.day = t.clock - days * Calendar.day)
        (fun m t h => .doomed rfl h) (fun ids m t => .dropped) (fun _ _ _ => .inl rfl) pages (.inr rfl)
    exact meets_bind_anew hdiscard fun _ => steps_pure ()
  | tick duration =>
    simp only [Call.serve, meets_bind, meets_execute, ending_ok, steps_publish]
    exact ⟨.ticked duration, fun _ => ⟨rfl, rfl⟩⟩

theorem stepping_serve (calls : List Call) (s : Store) :
    Pool.Stepping (fun i m s m' t => ∃ c ∈ calls[i]?, Counts c m s m' t)
      (fun i g r b v => ∃ c ∈ calls[i]?, anew g r b v) (sessions calls s) :=
  Pool.stepping_calls Call.serve (fun _ => Memory.empty) s calls fun c _ t => serve_steps c Memory.empty t

theorem Counts.clock (h : Counts c m s m' t) : s.clock ≤ t.clock := by
  cases h with
  | ticked duration => exact Nat.le_add_right _ _
  | _ => exact le_rfl

theorem insertImpression_eq {row : BannerImpression} {t : Table BannerImpression}
    (h : insertImpression key s = some (row, t)) : row.key = key ∧ row.createdAt = s.clock ∧
      (∃ b ∈ s.banners, b.id = key.bannerId) ∧ (∀ a ∈ s.impressions, a.key ≠ key) ∧
      s.impressions.insert (fun id => ⟨id, key, s.clock⟩) = some (row, t) := by
  unfold insertImpression at h
  split_ifs at h with hbanner
  obtain ⟨banner, hget⟩ := Option.ne_none_iff_exists'.mp (by simpa using hbanner)
  obtain ⟨hrow, -, hapart, -, -⟩ := Table.insert_eq_some h
  refine ⟨hrow ▸ rfl, hrow ▸ rfl, ⟨banner, Table.get_eq_some_iff.mp hget⟩, fun a ha hkey => ?_, h⟩
  refine (hapart a ha).2 key (by simp [Keyed.keys, hkey]) ?_
  rw [hrow]
  exact List.mem_singleton_self _

/-- What is known of a key that was counted: its row, or that it is too long ago for any session in
time, or that its banner is gone. -/
def Kept (key : Key) (s : Store) : Prop :=
  (∃ row ∈ s.impressions, row.key = key) ∨ (key.day + 2) * Calendar.day < s.clock ∨
    (key.bannerId < s.banners.next ∧ ∀ b ∈ s.banners, b.id ≠ key.bannerId)

/-- Every impression says its day, and is of a banner there was. -/
def Dated (s : Store) : Prop :=
  ∀ row ∈ s.impressions, row.key.day * Calendar.day ≤ row.createdAt ∧ row.key.bannerId < s.banners.next

/-- What a session knows of what it looked for, and of what it read to drop. -/
structure Tracked (c : Call) (s : Store) (m : Memory) : Prop where
  asked : ∀ a ∈ m.asked, a.1.day = dateOf a.2
  past : ∀ a ∈ m.asked, a.2 ≤ s.clock
  before : ∀ days size pages, c = .discard days size pages → m.before ≤ s.clock - days * Calendar.day
  called : m.doomed ≠ [] → ∃ days size pages, c = .discard days size pages
  doomed : ∀ id ∈ m.doomed, id < s.impressions.next ∧
    ∀ row ∈ s.impressions, row.id = id → row.createdAt < m.before

/-- A session writes what it looked for within a day. -/
def InTime (q : Sessions) (i : ℕ) (_ : Sessions) : Prop :=
  ∀ m ∈ q.memory i, ∀ a ∈ m.asked, q.store.clock ≤ a.2 + Calendar.day

instance (q : Sessions) (i : ℕ) (r : Sessions) : Decidable (InTime q i r) := by
  unfold InTime
  infer_instance

/-- Retention keeps the impressions of two days at least. -/
def Call.Patient : Call → Prop
  | .discard days _ _ => 2 ≤ days
  | _ => True

/-- A row of a step was there, or is the one it counted. -/
theorem Counts.impressions (h : Counts c m s m' t) : ∀ row ∈ t.impressions,
    row ∈ s.impressions ∨ (s.impressions.next ≤ row.id ∧ row.createdAt = s.clock ∧
      ∃ a ∈ m.asked, row.key = a.1 ∧ a.1.bannerId < s.banners.next) := by
  intro row hrow
  cases h with
  | rest | passed | asked | doomed | ticked => exact .inl hrow
  | deleted | dropped => exact .inl (Table.mem_erase.mp hrow).1
  | counted looked written =>
    obtain ⟨hkey, hmoment, ⟨banner, hbanner, hid⟩, -, hinsert⟩ := insertImpression_eq written
    refine ((Table.mem_insert hinsert).mp hrow).imp_right ?_
    rintro rfl
    exact ⟨(Table.insert_eq_some hinsert).2.1.ge, hmoment, _, looked, hkey,
      hid ▸ s.banners.fresh banner hbanner⟩

theorem Counts.nexts (h : Counts c m s m' t) :
    s.impressions.next ≤ t.impressions.next ∧ s.banners.next = t.banners.next := by
  cases h with
  | counted looked written =>
    exact ⟨(Nat.le_succ _).trans (Table.insert_eq_some (insertImpression_eq written).2.2.2.2).2.2.2.2.ge, rfl⟩
  | _ => exact ⟨le_rfl, rfl⟩

/-- What a session knows stays so while another one takes a step. -/
theorem Tracked.step {c₀ : Call} {m₀ : Memory} (h : Tracked c₀ s m₀) (w : Counts c m s m' t) :
    Tracked c₀ t m₀ where
  asked := h.asked
  past a ha := (h.past a ha).trans w.clock
  before days size pages hc := (h.before days size pages hc).trans (Nat.sub_le_sub_right w.clock _)
  called := h.called
  doomed id hid := by
    refine ⟨Nat.lt_of_lt_of_le (h.doomed id hid).1 w.nexts.1, fun row hrow hsame => ?_⟩
    rcases w.impressions row hrow with hold | ⟨hnew, -⟩
    · exact (h.doomed id hid).2 row hold hsame
    · exact absurd (hnew.trans hsame.le) (Nat.not_le.mpr (h.doomed id hid).1)

/-- What a session knows after a step of its own. -/
theorem Tracked.own (h : Tracked c s m) (w : Counts c m s m' t) : Tracked c t m' := by
  have hkept := h.step w
  cases w with
  | rest | deleted | ticked => exact hkept
  | passed | counted =>
    exact ⟨fun _ ha => (Option.not_mem_none _ ha).elim, fun _ ha => (Option.not_mem_none _ ha).elim,
      hkept.before, hkept.called, hkept.doomed⟩
  | asked today =>
    refine ⟨?_, ?_, hkept.before, hkept.called, hkept.doomed⟩
    · rintro _ ⟨⟩
      exact today
    · rintro _ ⟨⟩
      exact le_rfl
  | @doomed days size pages before called past =>
    refine ⟨hkept.asked, hkept.past, ?_, fun _ => ⟨days, size, pages, called⟩, fun id hid => ?_⟩
    · rintro days' size' pages' hc
      obtain ⟨rfl, rfl, rfl⟩ := Call.discard.inj (hc.symm.trans called)
      rcases past with rfl | rfl
      · exact h.before _ _ _ hc
      · exact le_rfl
    · obtain ⟨row, hrow, rfl, hold⟩ := Retention.mem_page hid
      refine ⟨s.impressions.fresh row hrow, fun row' hrow' hsame => ?_⟩
      rw [Table.eq_of_id hrow' hrow hsame]
      exact of_decide_eq_true hold
  | dropped => exact ⟨hkept.asked, hkept.past, hkept.before, fun h => absurd rfl h, by simp⟩

theorem Dated.step (h : Dated s) (w : Counts c m s m' t) (ht : Tracked c s m) : Dated t := by
  intro row hrow
  rw [← w.nexts.2]
  rcases w.impressions row hrow with hold | ⟨-, hmoment, a, ha, hkey, hbanner⟩
  · exact h row hold
  · rw [hkey, ht.asked a ha, hmoment]
    exact ⟨(Nat.div_mul_le_self _ _).trans (ht.past a ha), hbanner⟩

/-- A key of a row that is dropped is too long ago. -/
theorem dropped_long_ago {row : BannerImpression} {days before clock : ℕ} (hdays : 2 ≤ days)
    (hdated : row.key.day * Calendar.day ≤ row.createdAt) (hold : row.createdAt < before)
    (hbefore : before ≤ clock - days * Calendar.day) : (row.key.day + 2) * Calendar.day < clock := by
  have htwo : 2 * Calendar.day ≤ days * Calendar.day := Nat.mul_le_mul_right _ hdays
  rw [Nat.add_mul]
  omega

/-- What was counted stays so. -/
theorem Kept.step (h : Kept key s) (w : Counts c m s m' t) (ht : Tracked c s m) (hd : Dated s)
    (hc : c.Patient) : Kept key t := by
  rcases h with ⟨row, hrow, rfl⟩ | hold | ⟨hnext, hgone⟩
  · cases w with
    | rest | passed | asked | doomed | ticked => exact .inl ⟨row, hrow, rfl⟩
    | counted looked written =>
      exact .inl ⟨row, (Table.mem_insert (insertImpression_eq written).2.2.2.2).mpr (.inl hrow), rfl⟩
    | deleted id =>
      by_cases hid : row.key.bannerId = id
      · refine .inr (.inr ⟨(hd row hrow).2, fun b hb => ?_⟩)
        simpa [hid] using (Table.mem_erase.mp hb).2
      · exact .inl ⟨row, Table.mem_erase.mpr ⟨hrow, by simpa using hid⟩, rfl⟩
    | dropped =>
      by_cases hdoomed : row.id ∈ m.doomed
      · obtain ⟨days, size, pages, rfl⟩ := ht.called (List.ne_nil_of_mem hdoomed)
        exact .inr (.inl (dropped_long_ago hc (hd row hrow).1 ((ht.doomed row.id hdoomed).2 row hrow rfl)
          (ht.before days size pages rfl)))
      · exact .inl ⟨row, Table.mem_erase.mpr ⟨hrow, by simpa using hdoomed⟩, rfl⟩
  · exact .inr (.inl (Nat.lt_of_lt_of_le hold w.clock))
  · refine .inr (.inr ⟨w.nexts.2 ▸ hnext, ?_⟩)
    cases w with
    | deleted => exact fun b hb => hgone b (Table.mem_erase.mp hb).1
    | counted =>
      intro b hb
      obtain ⟨a, ha, rfl⟩ := (Table.mem_modify (still_raised _)).mp hb
      split_ifs
      · exact fun hid => hgone a ha ((still_raised _ a).1.symm.trans hid)
      · exact hgone a ha
    | _ => exact hgone

/-- The column of a kind. -/
def Banner.total (kind : BannerCountKind) (b : Banner) : ℕ :=
  match kind with
  | .view => b.views
  | .click => b.clicks

theorem total_raised (kind kind' : BannerCountKind) (b : Banner) :
    (b.raised kind').total kind = b.total kind + if kind' = kind then 1 else 0 := by
  cases kind <;> cases kind' <;> rfl

/-- How many of the keys are of a kind of a banner. -/
def tally (kind : BannerCountKind) (id : ℕ) (keys : List Key) : ℕ :=
  keys.countP (fun k => k.bannerId == id && k.kind == kind)

/-- What a run counted: the keys it wrote, none of which was there, and no key twice. -/
structure Tallied (s : Store) (keys : List Key) (t : Store) : Prop where
  once : keys.Nodup
  new : ∀ k ∈ keys, ∀ row ∈ s.impressions, row.key ≠ k
  start : ∀ row ∈ s.impressions, Kept row.key t
  seen : ∀ k ∈ keys, Kept k t
  rows : ∀ row ∈ t.impressions, row.key ∈ keys ∨ ∃ row' ∈ s.impressions, row'.key = row.key
  totals : ∀ b ∈ t.banners, ∃ b' ∈ s.banners, b'.id = b.id ∧
    ∀ kind, b.total kind = b'.total kind + tally kind b.id keys

/-- The keys of the impressions a turn wrote. -/
def countedIn (s t : Store) : List Key := (s.impressions.added t.impressions).map (·.key)

/-- The keys the turns of a run wrote impressions of, in the order of the turns. -/
def countedBy (trace : List (Turn Store)) : List Key :=
  trace.flatMap (fun turn => countedIn turn.before turn.after)

theorem countedIn_nil (h : ∀ row ∈ t.impressions, row ∈ s.impressions) : countedIn s t = [] := by
  rw [countedIn, Table.added_eq_nil h, List.map_nil]

/-- A step adds one to a total and the key it counts, or neither. -/
theorem Counts.tally (w : Counts c m s m' t) :
    (∀ row ∈ t.impressions, row ∈ s.impressions) ∧
      (∀ b' ∈ t.banners, ∃ b ∈ s.banners, b.id = b'.id ∧ ∀ kind, b'.total kind = b.total kind) ∨
    ∃ a ∈ m.asked, countedIn s t = [a.1] ∧ (∃ b ∈ s.banners, b.id = a.1.bannerId) ∧
      (∀ row ∈ s.impressions, row.key ≠ a.1) ∧ (∃ row ∈ t.impressions, row.key = a.1) ∧
      (∀ row ∈ t.impressions, row.key = a.1 ∨ row ∈ s.impressions) ∧
      ∀ b' ∈ t.banners, ∃ b ∈ s.banners, b.id = b'.id ∧
        ∀ kind, b'.total kind = b.total kind + tally kind b'.id [a.1] := by
  cases w with
  | rest | passed | asked | doomed | ticked =>
    exact .inl ⟨fun _ h => h, fun b hb => ⟨b, hb, rfl, fun _ => rfl⟩⟩
  | deleted =>
    exact .inl ⟨fun _ h => (Table.mem_erase.mp h).1,
      fun b hb => ⟨b, (Table.mem_erase.mp hb).1, rfl, fun _ => rfl⟩⟩
  | dropped =>
    exact .inl ⟨fun _ h => (Table.mem_erase.mp h).1, fun b hb => ⟨b, hb, rfl, fun _ => rfl⟩⟩
  | @counted key moment row u looked written =>
    obtain ⟨hkey, -, hbanner, hnew, hinsert⟩ := insertImpression_eq written
    have hcounted : countedIn s { s with
        impressions := u
        banners := s.banners.modify (·.id == key.bannerId) (Banner.raised key.kind)
          (still_raised key.kind) } = [key] := by
      rw [countedIn, Table.added_insert hinsert, List.map_singleton, hkey]
    refine .inr ⟨_, looked, hcounted, hbanner, hnew, ⟨row, (Table.mem_insert hinsert).mpr (.inr rfl), hkey⟩,
      fun a ha => ((Table.mem_insert hinsert).mp ha).symm.imp_left (by rintro rfl; exact hkey),
      fun b' hb' => ?_⟩
    obtain ⟨b, hb, rfl⟩ := (Table.mem_modify (still_raised _)).mp hb'
    refine ⟨b, hb, ?_, fun kind => ?_⟩
    · split_ifs
      · exact ((still_raised _ b).1).symm
      · rfl
    · split_ifs with hid
      · have hsame : (b.raised key.kind).id = b.id := (still_raised _ b).1
        have hid' : key.bannerId = b.id := (beq_iff_eq.mp hid).symm
        simp only [total_raised, Banners.tally, List.countP_singleton, hsame, hid', beq_self_eq_true,
          Bool.true_and, beq_iff_eq]
      · have hne : (key.bannerId == b.id) = false :=
          beq_false_of_ne fun h => hid (beq_iff_eq.mpr h.symm)
        simp [Banners.tally, hne]

/-- A session in time counts only what was never counted. -/
theorem kept_excludes {a : Key × ℕ} (hk : Kept a.1 s) (ha : a ∈ m.asked) (ht : Tracked c s m)
    (hin : s.clock ≤ a.2 + Calendar.day) (hnew : ∀ row ∈ s.impressions, row.key ≠ a.1)
    (hbanner : ∃ b ∈ s.banners, b.id = a.1.bannerId) : False := by
  rcases hk with ⟨row, hrow, hkey⟩ | hold | ⟨-, hgone⟩
  · exact hnew row hrow hkey
  · have hlt : a.2 < a.1.day * Calendar.day + Calendar.day := by
      rw [ht.asked a ha]
      exact Nat.lt_div_mul_add (by decide)
    rw [Nat.add_mul] at hold
    omega
  · obtain ⟨b, hb, hid⟩ := hbanner
    exact hgone b hb hid

theorem Tallied.step (h : Tallied s keys t) (w : Counts c m t m' u) (ht : Tracked c t m) (hd : Dated t)
    (hc : c.Patient) (hin : ∀ a ∈ m.asked, t.clock ≤ a.2 + Calendar.day) :
    Tallied s (keys ++ countedIn t u) u := by
  have hstart : ∀ row ∈ s.impressions, Kept row.key u := fun row hrow => (h.start row hrow).step w ht hd hc
  have hseen : ∀ k ∈ keys, Kept k u := fun k hk => (h.seen k hk).step w ht hd hc
  rcases w.tally with ⟨hrows, htotals⟩ | ⟨a, ha, hcounted, hbanner, hfree, hthere, hrows, htotals⟩
  · rw [countedIn_nil hrows, List.append_nil]
    refine ⟨h.once, h.new, hstart, hseen, fun row hrow => h.rows row (hrows row hrow), fun b' hb' => ?_⟩
    obtain ⟨b, hb, hid, hsame⟩ := htotals b' hb'
    obtain ⟨b₀, hb₀, hid₀, htotal⟩ := h.totals b hb
    exact ⟨b₀, hb₀, hid₀.trans hid, fun kind => by rw [hsame, htotal, hid]⟩
  · have hexcludes : ¬Kept a.1 t := fun hk => kept_excludes hk ha ht (hin a ha) hfree hbanner
    rw [hcounted]
    refine ⟨?_, ?_, hstart, ?_, ?_, ?_⟩
    · refine List.nodup_append.mpr ⟨h.once, List.nodup_singleton _, fun k hk k' hk' heq => ?_⟩
      rw [List.mem_singleton.mp hk'] at heq
      exact hexcludes (heq ▸ h.seen k hk)
    · intro k hk row hrow hkey
      rcases List.mem_append.mp hk with hk | hk
      · exact h.new k hk row hrow hkey
      · rw [List.mem_singleton.mp hk] at hkey
        exact hexcludes (hkey ▸ h.start row hrow)
    · intro k hk
      rcases List.mem_append.mp hk with hk | hk
      · exact hseen k hk
      · rw [List.mem_singleton.mp hk]
        exact .inl hthere
    · intro row hrow
      rw [List.mem_append, List.mem_singleton]
      rcases hrows row hrow with hkey | hold
      · exact .inl (.inr hkey)
      · exact (h.rows row hold).imp_left .inl
    · intro b' hb'
      obtain ⟨b, hb, hid, hmore⟩ := htotals b' hb'
      obtain ⟨b₀, hb₀, hid₀, htotal⟩ := h.totals b hb
      refine ⟨b₀, hb₀, hid₀.trans hid, fun kind => ?_⟩
      rw [hmore, htotal, hid, Nat.add_assoc]
      simp only [tally, List.countP_append]

theorem tallied_start (s : Store) : Tallied s [] s := by
  refine ⟨List.nodup_nil, by simp, fun row hrow => .inl ⟨row, hrow, rfl⟩, by simp,
    fun row hrow => .inr ⟨row, hrow, rfl⟩, fun b hb => ⟨b, hb, rfl, fun kind => ?_⟩⟩
  simp [tally]

/-- What holds of the sessions of a pool. -/
structure Sound (calls : List Call) (q : Sessions) : Prop where
  dated : Dated q.store
  tracked : ∀ i m, q.memory i = some m → ∀ c ∈ calls[i]?, Tracked c q.store m

theorem tracked_empty (c : Call) (s : Store) : Tracked c s Memory.empty := by
  refine ⟨?_, ?_, fun _ _ _ _ => Nat.zero_le _, fun h => absurd rfl h, ?_⟩ <;> simp [Memory.empty]

theorem sound_start (hd : Dated s) (calls : List Call) : Sound calls (sessions calls s) := by
  refine ⟨hd, fun i m hm c _ => ?_⟩
  obtain ⟨-, -, rfl⟩ := Pool.memory_sessions hm
  exact tracked_empty c s

/-- A turn of a sound pool writes nothing, or is a step of its call. -/
theorem Sound.turn (h : Sound calls q)
    {post : ℕ → Memory → Except Fault (Unit × Memory) → Store → Store → Prop}
    (turn : Pool.Stepped (fun m s m' t => ∃ c ∈ calls[i]?, Counts c m s m' t) post q i r) :
    Sound calls r ∧ ∃ m, q.memory i = some m ∧
      (r.store = q.store ∨ ∃ c ∈ calls[i]?, ∃ m', Tracked c q.store m ∧ Counts c m q.store m' r.store) := by
  obtain ⟨m, hm, ⟨view, result, hdone, hsame, -⟩ | ⟨m', hm', c, hcall, w⟩⟩ := turn.step
  · refine ⟨⟨hsame ▸ h.dated, fun j k hj c hcj => ?_⟩, m, hm, .inl hsame⟩
    rw [hsame]
    exact h.tracked j k (turn.memory_ended hdone hj) c hcj
  · have ht := h.tracked i m hm c hcall
    refine ⟨⟨h.dated.step w ht, fun j k hj c₀ hcj => ?_⟩, m, hm, .inr ⟨c, hcall, m', ht, w⟩⟩
    by_cases hji : j = i
    · rw [hji, hm'] at hj
      obtain rfl := Option.some.inj hj
      rw [hji] at hcj
      obtain rfl := Option.mem_unique hcj hcall
      exact ht.own w
    · exact (h.tracked j k ((turn.memory_others hji).symm.trans hj) c₀ hcj).step w

theorem run_tallied (hd : Dated s) (hc : ∀ c ∈ calls, c.Patient)
    (run : Pool.Run InTime (sessions calls s) trace q) :
    Sound calls q ∧ Tallied s (countedBy trace) q.store := by
  induction run with
  | start => exact ⟨sound_start hd calls, tallied_start s⟩
  | @turn trace q r i past taken ok ih =>
    obtain ⟨hsound, h⟩ := ih
    rw [countedBy, List.flatMap_append, List.flatMap_singleton]
    obtain ⟨hlater, m, hm, hsame | ⟨c, hcall, m', ht, w⟩⟩ :=
      hsound.turn (past.stepped (stepping_serve calls s) taken)
    · rw [countedIn_nil (hsame ▸ fun _ h => h), List.append_nil]
      exact ⟨hlater, hsame ▸ h⟩
    · exact ⟨hlater, h.step w ht hsound.dated (hc c (List.mem_of_getElem? hcall)) (ok m hm)⟩

/-- What a run adds to the totals of a banner is what its turns counted: where the sessions write
what they looked for within a day and retention keeps two days at least, the views and the clicks of
a banner that is still there rose by the impressions the turns wrote of it, none of which had one
when the run began, and no visitor counted twice for one banner, one kind and one day, whatever was
dropped in between. -/
theorem totals_of_visitors (hd : Dated s) (hc : ∀ c ∈ calls, c.Patient)
    (run : Pool.Run InTime (sessions calls s) trace q) :
    (countedBy trace).Nodup ∧ (∀ k ∈ countedBy trace, ∀ row ∈ s.impressions, row.key ≠ k) ∧
      (∀ row ∈ q.store.impressions,
        row.key ∈ countedBy trace ∨ ∃ row' ∈ s.impressions, row'.key = row.key) ∧
      ∀ b ∈ q.store.banners, ∃ b' ∈ s.banners, b'.id = b.id ∧
        ∀ kind, b.total kind = b'.total kind +
          (countedBy trace).countP (fun k => k.bannerId == b.id && k.kind == kind) := by
  obtain ⟨-, h⟩ := run_tallied hd hc run
  exact ⟨h.once, h.new, h.rows, h.totals⟩

namespace Wall

/-- A wall with one banner on it. -/
def store : Store :=
  ⟨0, ⟨[⟨0, none, "banner", 0, 0⟩], 1, List.pairwise_singleton _ _, by simp [Keyed.id]⟩, .empty⟩

end Wall

/-- One visitor looks twice at once, and once on the next day. -/
theorem totals_of_visitors_twice : ∃ trace q, Pool.Run InTime
    (sessions [.settleCount none "banner" (fun _ => .ok (some "x")) .view,
      .settleCount none "banner" (fun _ => .ok (some "x")) .view, .tick Calendar.day,
      .settleCount none "banner" (fun _ => .ok (some "x")) .view] Wall.store) trace q ∧
    (∃ b ∈ q.store.banners, b.views = 2) ∧ (countedBy trace).Nodup ∧
      ∀ b ∈ q.store.banners, ∃ b' ∈ Wall.store.banners, b'.id = b.id ∧ ∀ kind,
        b.total kind = b'.total kind +
          (countedBy trace).countP (fun k => k.bannerId == b.id && k.kind == kind) := by
  obtain ⟨trace, q, run, hq⟩ := Pool.exists_run InTime
    (sessions [.settleCount none "banner" (fun _ => .ok (some "x")) .view,
      .settleCount none "banner" (fun _ => .ok (some "x")) .view, .tick Calendar.day,
      .settleCount none "banner" (fun _ => .ok (some "x")) .view] Wall.store)
    [0, 1, 0, 1, 0, 1, 2, 3, 3, 3] (fun q => ∃ b ∈ q.store.banners, b.views = 2) (by decide +kernel)
  obtain ⟨hnodup, -, -, htotals⟩ := totals_of_visitors (s := Wall.store)
    (fun row hrow => absurd hrow Table.not_mem_empty) (by simp [Call.Patient]) run
  exact ⟨trace, q, run, hq, hnodup, htotals⟩

end FastKit.Banners
