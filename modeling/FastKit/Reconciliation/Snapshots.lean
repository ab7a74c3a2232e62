import FastKit.Delivery.Keeps
import FastKit.Services.RevenueCat
import FastKit.Services.Sessions

/-! # What an answer may be taken for

An answer of RevenueCat is either refused, and then nothing an account holds moves, or every
purchase it lists is read with its dates.
-/

namespace FastKit
open Transaction Transaction.Program

/-- Nothing an account holds is any different. -/
structure Unmoved (s t : Store) : Prop where
  subscriptions : t.subscriptions = s.subscriptions
  entitlements : t.entitlements = s.entitlements
  benefits : t.benefits = s.benefits
  grants : t.grants = s.grants
  balances : t.balances = s.balances
  transactions : t.transactions = s.transactions
  userProducts : t.userProducts = s.userProducts
  purchases : t.purchases = s.purchases

theorem Unmoved.refl (s : Store) : Unmoved s s := ⟨rfl, rfl, rfl, rfl, rfl, rfl, rfl, rfl⟩

/-- A session whose segments move nothing an account holds, whatever others do. -/
def unmoving : Contract Memory Memory Store where
  rely := fun _ _ _ => True
  guar := fun _ s _ t => Unmoved s t
  shows := fun _ _ => True
  prompt := True

def Failed {α : Type} : Memory → Except Fault (α × Memory) → Store → Store → Prop :=
  ending (fun _ _ _ _ => False)
    fun _ e b v => Unmoved b v ∧ ((∃ text, e = .silent text) ∨ ∃ text, e = .unreadable text)

variable {g m : Memory} {b v : Store}

theorem elapse_unmoving {post : Memory → Except Fault (Unit × Memory) → Store → Store → Prop}
    (duration : ℕ) (h : Unmoved b v) (hp : ∀ t, post g (.ok ((), m)) t t) :
    (elapse duration).Meets unmoving post g m b v := by
  rw [elapse, meets_bind, meets_execute, ending_ok, meets_publish]
  exact ⟨g, ⟨h.1, h.2, h.3, h.4, h.5, h.6, h.7, h.8⟩, trivial, fun t _ => hp t⟩

theorem record_unmoving {tenant : Option ℕ} {user : ℕ} {level : LogLevel} {message : LogMessage}
    {post : Memory → Except Fault (Unit × Memory) → Store → Store → Prop} (hm : m.Clean)
    (h : Unmoved b v) (hp : ∀ m' t, m'.Clean → post g (.ok ((), m')) t t) :
    (record tenant user level message).Meets unmoving post g m b v := by
  rw [record, meets_bind, meets_execute, ending_ok, persist, meets_bind, meets_attempt]
  refine Setting.flush_clean hm ?_
  rw [ending_ok, ending_ok, meets_publish]
  exact ⟨g, ⟨h.1, h.2, h.3, h.4, h.5, h.6, h.7, h.8⟩, trivial, fun t _ => hp _ t m.clean_flushed⟩

/-- A question that is not answered moves nothing, and says why. -/
theorem against_unmoving (G : Gateway) (integration : Integration) (user : User) (hm : m.Clean)
    (h : Unmoved b v) (hanswer : ∀ held, (G.answer integration.id user.id v.clock).2 ≠ .held held) :
    (against G integration user).Meets unmoving Failed g m b v := by
  rw [against, meets_bind, now, meets_query, ending_ok, meets_bind]
  refine elapse_unmoving _ h fun t => ?_
  rw [ending_ok]
  cases hs : (G.answer integration.id user.id v.clock).2 with
  | held held => exact absurd hs (hanswer held)
  | silent text => exact ⟨.refl t, .inl ⟨text, rfl⟩⟩
  | rateLimited seconds =>
    rw [meets_bind]
    exact elapse_unmoving _ (.refl t) fun t => ⟨.refl t, .inl ⟨_, rfl⟩⟩
  | refused =>
    rw [meets_bind]
    refine record_unmoving hm (.refl t) fun m' t hm' => ?_
    rw [ending_ok, commit, meets_bind, meets_bind]
    refine Setting.flush_clean hm' ?_
    rw [ending_ok, meets_publish]
    exact ⟨g, .refl t, trivial, fun t _ => ⟨.refl t, .inr ⟨_, rfl⟩⟩⟩

namespace RevenueCat
open Text

/-- What a date says is read as its moment, and what says nothing as no date. -/
def ReadAs (L : Language) (value : Json) (moment : Option ℕ) : Prop :=
  (value = .null ∧ moment = none) ∨ ∃ date instant, value = .string date ∧
    L.fromisoformat (zulu date) = some (.aware instant) ∧ moment = some instant

/-- The dates of a purchase by the fields they are read from. -/
def readings (p : ProviderPurchase) : List (String × Option ℕ) :=
  [("purchase_date", p.purchasedAt), ("original_purchase_date", p.firstPurchasedAt),
    ("expires_date", p.periodEndsAt), ("grace_period_expires_date", p.graceEndsAt),
    ("auto_resume_date", p.autoResumeAt), ("unsubscribe_detected_at", p.unsubscribedAt),
    ("refunded_at", p.refundedAt)]

/-- A purchase with every date of an entry. -/
def Dated (L : Language) (entry : Fields) (p : ProviderPurchase) : Prop :=
  ∀ r ∈ readings p, ReadAs L (fieldOf entry r.1) r.2

def Lists (body : Option Json) (subscriptions nonSubscriptions : Fields) : Prop :=
  ∃ envelope subscriber, body = some (.object envelope) ∧
    fieldOf envelope "subscriber" = .object subscriber ∧
    fieldOf subscriber "subscriptions" = .object subscriptions ∧
    fieldOf subscriber "non_subscriptions" = .object nonSubscriptions

def ReadsSubscription (L : Language) (listed : String × Json) (p : ProviderPurchase) : Prop :=
  ∃ entry, listed.2 = .object entry ∧ hasField entry "expires_date" = true ∧
    p.productReference = numberOf (reference L listed.1 entry) ∧ Dated L entry p

/-- What a one-time product was bought as last, by the text of its date. -/
def IsLatest (L : Language) (entry : Fields) (entries : List Fields) : Prop :=
  entry ∈ entries ∧ ∀ other ∈ entries, (fieldOf other "purchase_date").strOr L.quoted ≤
    (fieldOf entry "purchase_date").strOr L.quoted

/-- A one-time product of an answer, read: it has the date it was bought at and no other. -/
def ReadsOnce (L : Language) (listed : String × Json) (p : ProviderPurchase) : Prop :=
  ∃ entries entry, listed.2 = .array (entries.map .object) ∧ IsLatest L entry entries ∧
    p.productReference = numberOf listed.1 ∧ p.recurring = false ∧
    ReadAs L (fieldOf entry "purchase_date") p.purchasedAt ∧
    (∀ r ∈ readings p, r.1 ≠ "purchase_date" → r.2 = none)

section Reading
variable {L : Language} {α β : Type} {value : Json} {entry : Fields}

theorem mapM_ok {f : α → Except Refusal β} {l : List α} {r : List β} :
    l.mapM f = .ok r ↔ List.Forall₂ (fun a b => f a = .ok b) l r := by
  induction l generalizing r with
  | nil =>
    rw [List.mapM_nil, List.forall₂_nil_left_iff]
    exact ⟨fun h => (Except.ok.inj h).symm, fun h => h ▸ rfl⟩
  | cons a l ih =>
    rw [List.mapM_cons]
    constructor
    · intro h
      cases ha : f a with
      | error e => simp [ha, bind, Except.bind] at h
      | ok b =>
        cases hl : l.mapM f with
        | error e => simp [ha, hl, bind, Except.bind] at h
        | ok bs =>
          obtain rfl : b :: bs = r := by simpa [ha, hl, bind, Except.bind, pure, Except.pure] using h
          exact .cons ha (ih.mp hl)
    · rintro (_ | ⟨ha, hl⟩)
      simp [ha, ih.mpr hl, bind, Except.bind, pure, Except.pure]

theorem exists_of_forall₂ {R : α → β → Prop} {l : List α} {r : List β} (h : List.Forall₂ R l r)
    {b : β} (hb : b ∈ r) : ∃ a, R a b := by
  induction h with
  | nil => cases hb
  | cons hab _ ih =>
    rcases List.mem_cons.mp hb with rfl | hb
    · exact ⟨_, hab⟩
    · exact ih hb

theorem map_ok {f : α → β} {x : Except Refusal α} {b : β} (h : x.map f = .ok b) :
    ∃ a, x = .ok a ∧ f a = b := by
  cases x with
  | error e => cases h
  | ok a => exact ⟨a, rfl, Except.ok.inj h⟩

theorem readAs_momentOf (h : validDate L value = true) : ReadAs L value (momentOf L value) := by
  cases value with
  | null => exact .inl ⟨rfl, rfl⟩
  | string date =>
    obtain ⟨moment, hmoment, haware⟩ := (Option.any_eq_true _ _).mp h
    have hread : L.fromisoformat (zulu date) = some moment := by
      rw [instant] at hmoment
      split_ifs at hmoment
      exact hmoment
    cases moment with
    | aware moment => exact .inr ⟨date, moment, rfl, hread, by rw [momentOf, hmoment]; rfl⟩
    | naive wall => cases haware
  | _ => cases h

theorem validatePurchase_ok {recurring : Bool}
    (h : validatePurchase L recurring value = .ok entry) :
    value = .object entry ∧ (recurring = true → hasField entry "expires_date" = true) ∧
      ∀ field ∈ dates, validDate L (fieldOf entry field) = true := by
  cases value with
  | object fields =>
    rw [validatePurchase] at h
    split_ifs at h with hdate hends hvalid
    obtain rfl := Except.ok.inj h
    refine ⟨rfl, fun hr => ?_, List.all_eq_true.mp hvalid⟩
    simpa [hr] using hends
  | _ => cases h

theorem recurring_reads {listed : String × Json} {product : String × Fields}
    (h : (validatePurchase L true listed.2).map (listed.1, ·) = .ok product) :
    ReadsSubscription L listed (recurring L product.1 product.2) := by
  obtain ⟨entry, hentry, rfl⟩ := map_ok h
  obtain ⟨hvalue, hends, hvalid⟩ := validatePurchase_ok hentry
  refine ⟨entry, hvalue, hends rfl, rfl, fun r hr => ?_⟩
  simp only [readings, List.mem_cons, List.not_mem_nil, or_false] at hr
  rcases hr with rfl | rfl | rfl | rfl | rfl | rfl | rfl <;>
    exact readAs_momentOf (hvalid _ (by simp [dates]))

theorem validateOnce_ok {entries : List Fields} (h : validateOnce L value = .ok entries) :
    value = .array (entries.map .object) ∧ ∀ entry ∈ entries, ∀ field ∈ dates,
      validDate L (fieldOf entry field) = true := by
  cases value with
  | array values =>
    have hread := mapM_ok.mp h
    constructor
    · rw [Json.array.injEq, ← List.forall₂_eq_eq_eq, List.forall₂_map_right_iff]
      exact hread.imp fun _ _ h => (validatePurchase_ok h).1
    · intro entry hentry
      obtain ⟨v, hv⟩ := exists_of_forall₂ hread hentry
      exact (validatePurchase_ok hv).2.2
  | _ => cases h

theorem latest_eq_none {entries : List Fields} : latest L entries = none ↔ entries = [] :=
  List.argmax_eq_none

theorem latest_isLatest {entries : List Fields} (h : latest L entries = some entry) :
    IsLatest L entry entries :=
  ⟨List.argmax_mem h, fun _ hother => List.le_of_mem_argmax
    (f := fun entry => (fieldOf entry "purchase_date").strOr L.quoted) hother h⟩

theorem once_reads {listed : String × Json} {product : String × List Fields}
    (h : (validateOnce L listed.2).map (listed.1, ·) = .ok product)
    (hlatest : latest L product.2 = some entry) :
    ReadsOnce L listed (once L product.1 entry) := by
  obtain ⟨entries, hentries, rfl⟩ := map_ok h
  obtain ⟨hvalue, hvalid⟩ := validateOnce_ok hentries
  have hmem := latest_isLatest hlatest
  refine ⟨entries, entry, hvalue, hmem, rfl, rfl, ?_, ?_⟩
  · exact readAs_momentOf (hvalid entry hmem.1 _ (by simp [dates]))
  · simp [readings, once]

/-- A one-time product nothing was bought of is not listed. -/
def bought (listed : String × Json) : Bool := listed.2.truthy

theorem once_each {nonSubscriptions : Fields} {products : List (String × List Fields)}
    (h : List.Forall₂ (fun listed product =>
      (validateOnce L listed.2).map (listed.1, ·) = .ok product) nonSubscriptions products) :
    List.Forall₂ (ReadsOnce L) (nonSubscriptions.filter bought)
      (products.filterMap fun p => (latest L p.2).map (once L p.1)) := by
  induction h with
  | nil => exact .nil
  | @cons listed product rest products hread _ ih =>
    obtain ⟨entries, hentries, hproduct⟩ := map_ok hread
    obtain ⟨hvalue, -⟩ := validateOnce_ok hentries
    cases hlatest : latest L product.2 with
    | none =>
      have hnil : entries = [] := by
        rw [← latest_eq_none (L := L), ← hlatest, ← hproduct]
      have hbought : bought listed = false := by
        rw [bought, hvalue, hnil]
        rfl
      rw [List.filter_cons_of_neg (by simp [hbought]), List.filterMap_cons_none (by simp [hlatest])]
      exact ih
    | some entry =>
      have hbought : bought listed = true := by
        obtain ⟨hmem, -⟩ := latest_isLatest hlatest
        rw [← hproduct] at hmem
        rw [bought, hvalue]
        cases entries with
        | nil => cases hmem
        | cons _ _ => rfl
      rw [List.filter_cons_of_pos hbought, List.filterMap_cons_some (by rw [hlatest]; rfl)]
      exact .cons (once_reads hread hlatest) ih

/-- Every purchase of an answer, read: the subscriptions, and what was bought once. -/
def Reads (L : Language) (body : Option Json) (held : List ProviderPurchase) : Prop :=
  ∃ subscriptions nonSubscriptions recurring once,
    Lists body subscriptions nonSubscriptions ∧ held = recurring ++ once ∧
    List.Forall₂ (ReadsSubscription L) subscriptions recurring ∧
    List.Forall₂ (ReadsOnce L) (nonSubscriptions.filter bought) once

theorem customerSnapshot_reads {body : Option Json} {subscriber : Subscriber}
    (h : customerSnapshot L body = .ok subscriber) : Reads L body (purchases L subscriber) := by
  unfold customerSnapshot at h
  split at h <;> try cases h
  rename_i envelope
  split at h <;> try cases h
  rename_i snapshot hsubscriber
  split at h <;> try cases h
  rename_i subscriptions nonSubscriptions hsubscriptions honce
  cases hrecurring : subscriptions.mapM fun p => (validatePurchase L true p.2).map (p.1, ·) with
  | error e => simp [hrecurring, bind, Except.bind] at h
  | ok recurring =>
    cases hproducts : nonSubscriptions.mapM fun p => (validateOnce L p.2).map (p.1, ·) with
    | error e => simp [hrecurring, hproducts, bind, Except.bind] at h
    | ok products =>
      obtain rfl : ⟨recurring, products⟩ = subscriber := by
        simpa [hrecurring, hproducts, bind, Except.bind, pure, Except.pure] using h
      refine ⟨subscriptions, nonSubscriptions, _, _,
        ⟨envelope, snapshot, rfl, hsubscriber, hsubscriptions, honce⟩, rfl, ?_,
        once_each (mapM_ok.mp hproducts)⟩
      rw [List.forall₂_map_right_iff]
      exact (mapM_ok.mp hrecurring).imp fun _ _ => recurring_reads

/-- An account without a purchase is one that both collections are there for and hold nothing. -/
theorem Reads.nil {body : Option Json} (h : Reads L body []) :
    ∃ nonSubscriptions, Lists body [] nonSubscriptions ∧
      ∀ listed ∈ nonSubscriptions, bought listed = false := by
  obtain ⟨subscriptions, nonSubscriptions, recurring, once, hlists, hheld, hrecurring, honce⟩ := h
  obtain ⟨rfl, rfl⟩ := List.append_eq_nil_iff.mp hheld.symm
  obtain rfl := List.forall₂_nil_right_iff.mp hrecurring
  refine ⟨nonSubscriptions, hlists, fun listed hlisted => ?_⟩
  have hnone := List.filter_eq_nil_iff.mp (List.forall₂_nil_right_iff.mp honce) listed hlisted
  exact Bool.not_eq_true _ ▸ hnone

theorem answerOf_error (refusal : Refusal) (held : List ProviderPurchase) :
    answerOf (.error refusal) ≠ .held held := by
  cases refusal with
  | status code => simp only [answerOf]; split_ifs <;> simp
  | _ => simp [answerOf]

end Reading

/-- What a session that asks makes of an answer that was refused: nothing an account holds. -/
def LeavesAll (answer : Answer) : Prop :=
  ∀ (G : Gateway) (integration : Integration) (user : User) (g m : Memory) (s : Store),
    m.Clean → (G.answer integration.id user.id s.clock).2 = answer →
    (against G integration user).Meets unmoving Failed g m s s

/-- An answer is refused and nothing an account holds moves, or each of its purchases is read
with the dates it has. An empty account is one whose two collections are empty. -/
theorem snapshot_refused_or_read (L : Language) (answer : Response) :
    (∃ refusal, stateFromQuery L answer = .error refusal ∧
      LeavesAll (answerOf (.error refusal))) ∨
    (∃ held, stateFromQuery L answer = .ok held ∧ Reads L answer.body held ∧
      (held = [] → ∃ nonSubscriptions, Lists answer.body [] nonSubscriptions ∧
        ∀ listed ∈ nonSubscriptions, bought listed = false)) := by
  cases hstate : stateFromQuery L answer with
  | error refusal =>
    refine .inl ⟨refusal, rfl, fun G integration user g m s hm hG => ?_⟩
    exact against_unmoving G integration user hm (.refl s) fun held =>
      hG ▸ answerOf_error refusal held
  | ok held =>
    have hreads : Reads L answer.body held := by
      rw [stateFromQuery] at hstate
      split_ifs at hstate
      obtain ⟨subscriber, hsubscriber, rfl⟩ := map_ok hstate
      exact customerSnapshot_reads hsubscriber
    exact .inr ⟨held, rfl, hreads, fun hnil => (hnil ▸ hreads).nil⟩

namespace Sample

def language : Language where
  quoted text := "'" ++ text ++ "'"
  upper text := String.ofList (text.toList.map Char.toUpper)
  fromisoformat date :=
    if date = "2026-01-01T00:00:00+00:00" then some (.aware 63902822400000000)
    else if date = "2026-02-01T00:00:00+00:00" then some (.aware 63905500800000000)
    else none

def answer (subscriber : Fields) : Response :=
  ⟨200, 0, some (.object [("subscriber", .object subscriber)])⟩

/-- A purchase made once that names when it ends. -/
def pass : Fields :=
  [("id", .string "a"), ("purchase_date", .string "2026-01-01T00:00:00Z"),
    ("expires_date", .string "2026-02-01T00:00:00Z")]

def passBought : Response :=
  answer [("subscriptions", .object []),
    ("non_subscriptions", .object [("pass", .array [.object pass])])]

/-- An answer that leaves out what was bought once. -/
def cut : Response := answer [("subscriptions", .object [])]

def gateway (answer : Response) : Gateway where
  answer _ _ _ := (0, answerOf (stateFromQuery language answer))
  hasSecret _ := true
  queryable _ := true
  eventStated _ := false

end Sample

theorem snapshot_refused_or_read_cut :
    (against (Sample.gateway Sample.cut) Shop.integration Shop.buyer).Meets unmoving Failed
      Memory.empty Memory.empty (Shop.new (Shop.catalog [])) (Shop.new (Shop.catalog [])) := by
  rcases snapshot_refused_or_read Sample.language Sample.cut with
    ⟨refusal, hrefused, hleaves⟩ | ⟨held, hheld, -⟩
  · refine hleaves _ _ _ _ _ _ (fun _ hl => absurd hl List.not_mem_nil) ?_
    rw [← hrefused]
    rfl
  · cases hheld

/-- The end of a purchase made once is not read. -/
theorem pass_end_unread :
    stateFromQuery Sample.language Sample.passBought =
        .ok [once Sample.language "pass" Sample.pass] ∧
      ¬Dated Sample.language Sample.pass (once Sample.language "pass" Sample.pass) := by
  refine ⟨by rfl, fun h => ?_⟩
  rcases h ("expires_date", none) (by simp [readings, once]) with ⟨hnull, -⟩ | ⟨_, _, -, -, hnone⟩
  · cases hnull
  · cases hnone

end RevenueCat
end FastKit
