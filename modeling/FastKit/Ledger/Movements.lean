import FastKit.Ledger.Balances
import FastKit.Services.Sessions

/-! # Movements beside each other

Movements of any accounts run statement by statement beside each other, and wait for the
row of a balance where it is locked. Each goes through the phases of its row, and what a
phase promises explains every balance by its entries.
-/

namespace FastKit
open Transaction Transaction.Program

structure Movement where
  userId : ℕ
  currencyId : ℕ
  type : CreditTransactionType
  amount : ℤ
  description : Option String
  key : IdempotencyKey
  benefitGrantId : Option ℕ

namespace Movement

def pair (mv : Movement) : ℕ × ℕ := (mv.userId, mv.currencyId)

def serve (mv : Movement) : Db CreditTransaction :=
  move .rowLock mv.userId mv.currencyId mv.type mv.amount mv.description mv.key mv.benefitGrantId

structure Asked (mv : Movement) (e : CreditTransaction) : Prop where
  pair : (e.userId, e.currencyId) = mv.pair
  key : e.idempotencyKey = mv.key
  amount : signedAmount mv.type mv.amount = .ok e.amount

end Movement

/-- How far a movement is: it looked for its key, it holds its row, and it let go of the row
with nothing or with an entry written. -/
inductive Phase where
  | start | looking | holding | left | wrote
  deriving DecidableEq

namespace Movement

/-- What a segment of a movement does in its phase. -/
def guar (mv : Movement) : Phase → Store → Phase → Store → Prop
  | .start, s, .looking, t => t = s ∧ ∀ e ∈ s.transactions, e.idempotencyKey ≠ mv.key
  | .looking, s, .looking, t => t = s
  | .looking, s, .holding, t => Rests s t ∧ t.locks = mv.pair :: s.locks ∧ mv.pair ∉ s.locks
  | .holding, s, .holding, t => t = s
  | .holding, s, .left, t => Rests s t ∧ t.locks = s.locks.erase mv.pair
  | .holding, s, .wrote, t => ∃ e, mv.Asked e ∧ Moved e s t ∧ t.locks = s.locks.erase mv.pair
  | _, _, _, _ => False

/-- What a movement relies on: no entry goes, and nobody moves the balance it holds. -/
def rely (mv : Movement) (phase : Phase) (s t : Store) : Prop :=
  (∀ e ∈ s.transactions, e ∈ t.transactions) ∧
    (phase = .holding → entriesOf mv.userId mv.currencyId t = entriesOf mv.userId mv.currencyId s ∧
      amountOf mv.userId mv.currencyId t = amountOf mv.userId mv.currencyId s)

def contract (mv : Movement) : Contract Phase Memory Store where
  rely := mv.rely
  guar := mv.guar
  shows := fun _ _ => True
  prompt := False

/-- A refusal as a duplicate meets an entry of another account or currency. -/
def Refused (mv : Movement) (error : Fault) (s : Store) : Prop :=
  ∀ code, error = .conflict code →
    ∃ e ∈ s.transactions, e.idempotencyKey = mv.key ∧ (e.userId, e.currencyId) ≠ mv.pair

/-- How a movement ends: with the entry of its key, or refused with nothing written. -/
def Ended (mv : Movement) :
    Phase → Except Fault (CreditTransaction × Memory) → Store → Store → Prop :=
  ending (fun _ p b _ => p.1 ∈ b.transactions ∧ p.1.idempotencyKey = mv.key)
    (fun phase error b _ => phase ≠ .wrote ∧ mv.Refused error b)

def EndedHeld (mv : Movement) :
    Phase → Except Fault (CreditTransaction × Memory) → Store → Store → Prop :=
  ending (fun _ p b _ => p.1 ∈ b.transactions ∧ p.1.idempotencyKey = mv.key)
    (fun phase error b _ => phase = .holding ∧ mv.Refused error b)

end Movement

section Statements
variable {γ : Type} {C : Contract γ Memory Store} {g : γ} {m : Memory} {b v : Store}

/-- A session that loaded no subscription has nothing to flush. -/
theorem meets_flush_empty (hm : m.subscriptions = [])
    {post : γ → Except Fault (Unit × Memory) → Store → Store → Prop} :
    flush.Meets C post g m b v ↔ post g (.ok ((), m.flushed)) b v := by
  simp only [flush, meets_bind, meets_remembered, meets_query, ending_ok, hm]
  exact Iff.rfl

theorem meets_persist_empty (hm : m.subscriptions = [])
    {post : γ → Except Fault (Unit × Memory) → Store → Store → Prop} :
    persist.Meets C post g m b v ↔ ∃ g', C.guar g b g' v ∧ C.shows g' m.flushed ∧
      ∀ t, C.rely g' v t → post g' (.ok ((), m.flushed)) t t := by
  simp only [persist, meets_bind, meets_attempt, meets_flush_empty hm, ending_ok, meets_publish]

theorem flushed_empty (hm : m.subscriptions = []) : m.flushed.subscriptions = [] := by
  rw [Memory.flushed, hm]
  rfl

/-- What is held of an account is its row, in the store with that row. -/
theorem meets_held {userId currencyId : ℕ} (hm : m.subscriptions = [])
    {post : γ → Except Fault (UserBalance × Memory) → Store → Store → Prop}
    (h : ∀ row m', m'.subscriptions = [] →
      (holding userId currencyId v).balances.find (heldBy userId currencyId) = some row →
      row.userId = userId → row.currencyId = currencyId → row.amount = amountOf userId currencyId v →
      post g (.ok (row, m')) b (holding userId currencyId v)) :
    (held userId currencyId).Meets C post g m b v := by
  obtain ⟨row, hrow, hu, hc, ha⟩ := find_holding userId currencyId v
  simp only [held, insertOrRead, meets_bind, meets_query, ending_ok]
  cases hf : v.balances.find (heldBy userId currencyId) with
  | some found =>
    have hsame : holding userId currencyId v = v := by simp only [holding, hf]
    obtain rfl : found = row := by rw [hsame, hf] at hrow; exact Option.some.inj hrow
    have hpost := h found m hm hrow hu hc ha
    rw [hsame] at hpost
    simp only [meets_pure, ending_ok, meets_bind, meets_query, hf]
    exact hpost
  | none =>
    simp only [meets_bind, meets_flush_empty hm, ending_ok, meets_query]
    cases hi : v.balances.insert (emptyBalance userId currencyId) with
    | none =>
      have hsame : holding userId currencyId v = v := by simp only [holding, hf, hi]
      rw [hsame, hf] at hrow
      cases hrow
    | some inserted =>
      obtain ⟨row', balances⟩ := inserted
      have hsame : holding userId currencyId v = { v with balances := balances } := by
        simp only [holding, hf, hi]
      have hpost := h row m.flushed (flushed_empty hm) hrow hu hc ha
      rw [hsame] at hpost hrow
      simp only [meets_bind, meets_execute, ending_ok, meets_pure, meets_query]
      have hfind : balances.find (heldBy userId currencyId) = some row := hrow
      rw [hfind]
      exact hpost

end Statements

theorem holding_locks (userId currencyId : ℕ) (s : Store) :
    (holding userId currencyId s).locks = s.locks := by
  unfold holding
  split
  · rfl
  · split <;> rfl

namespace Movement
variable {mv : Movement} {m : Memory} {b t v : Store}

/-- Opening the row and letting go of it moves nothing. -/
theorem guar_left (userId currencyId : ℕ) : mv.guar .holding b .left
    { holding userId currencyId b with
      locks := (holding userId currencyId b).locks.erase mv.pair } :=
  ⟨⟨(rests_holding userId currencyId b).entries, (rests_holding userId currencyId b).amounts⟩,
    by rw [holding_locks]⟩

/-- The entry of a movement is written over the balance the movement holds. -/
theorem writeMovement_meets {row : UserBalance} {signed : ℤ} (hm : m.subscriptions = [])
    (hs : signedAmount mv.type mv.amount = .ok signed)
    (hrow : (holding mv.userId mv.currencyId b).balances.find (heldBy mv.userId mv.currencyId)
      = some row)
    {held : UserBalance} (hu : held.userId = mv.userId) (hc : held.currencyId = mv.currencyId)
    (ha : held.amount = amountOf mv.userId mv.currencyId b)
    (hrange : 0 ≤ held.amount + signed ∧ held.amount + signed ≤ bigIntegerMax)
    (hkey : ∀ e ∈ entriesOf mv.userId mv.currencyId b, e.idempotencyKey ≠ mv.key) :
    (writeMovement .rowLock held signed mv.type mv.description mv.key mv.benefitGrantId).Meets
      mv.contract mv.EndedHeld .holding m b (holding mv.userId mv.currencyId b) := by
  have hentries := (rests_holding mv.userId mv.currencyId b).entries
  simp only [writeMovement, meets_bind, meets_query, ending_ok]
  split
  · rename_i e transactions hi
    obtain ⟨he, -, happart, hrows, -⟩ := Table.insert_eq_some hi
    have hpair : e.userId = mv.userId ∧ e.currencyId = mv.currencyId := by
      rw [he]
      exact ⟨hu, hc⟩
    have hleft : e.amount = signed ∧ e.balanceAfter = held.amount + signed ∧
        e.idempotencyKey = mv.key := by
      rw [he]
      exact ⟨rfl, rfl, rfl⟩
    simp only [meets_bind, meets_execute, ending_ok, Discipline.rowLock, unlock, meets_pure,
      meets_persist_empty hm]
    have hrest := rests_holding mv.userId mv.currencyId b
    obtain ⟨hamount, hothers⟩ := amountOf_modify (s := holding mv.userId mv.currencyId b)
      (f := fun b => { b with amount := held.amount + signed }) (fun _ => ⟨rfl, rfl⟩)
      (held.amount + signed) (fun _ => ⟨rfl, rfl, rfl⟩) hrow
    refine ⟨.wrote, ⟨e, ⟨by rw [hpair.1, hpair.2]; rfl, hleft.2.2, by rw [hs, hleft.1]⟩, ?_, ?_⟩,
      trivial, ?_⟩
    · constructor
      · exact hrows.trans (by rw [hentries])
      · intro e' he' hsame
        rw [← hentries] at he'
        exact (happart e' he').2 e'.idempotencyKey (List.mem_singleton.mpr rfl)
          (by rw [hsame]; exact List.mem_singleton.mpr rfl)
      · rw [hpair.1, hpair.2, hleft.1, hleft.2.1, ha]
      · rw [hleft.2.1]
        exact hrange
      · rw [hpair.1, hpair.2, hleft.2.1, hu, hc]
        exact hamount
      · intro user currency hne
        rw [hpair.1, hpair.2] at hne
        rw [← hrest.amounts user currency, ← hothers user currency hne, hu, hc]
        rfl
    · rw [hu, hc, holding_locks]
      rfl
    · rintro t ⟨hkept, -⟩
      refine ⟨hkept _ ?_, hleft.2.2⟩
      rw [← Table.mem_rows, hrows]
      exact List.mem_append_right _ (List.mem_singleton.mpr rfl)
  · rename_i hi
    simp only [rollback, meets_bind, meets_revert, meets_remember, meets_raise, ending_ok]
    refine ⟨rfl, fun code _ => ?_⟩
    obtain ⟨e, he, hapart⟩ := Table.insert_eq_none hi rfl
    rw [hentries] at he
    -- the key is taken, and by nobody whose balance this movement holds
    have hsame : e.idempotencyKey = mv.key := by
      by_contra hne
      refine hapart ⟨Nat.ne_of_lt ?_, fun key hk hk' => hne ?_⟩
      · rw [hentries]
        exact b.transactions.fresh e he
      · exact (List.mem_singleton.mp hk).symm.trans (List.mem_singleton.mp hk')
    refine ⟨e, he, hsame, fun hp => ?_⟩
    obtain ⟨hu', hc'⟩ := Prod.mk.inj hp
    exact hkey e (Table.mem_select.mpr ⟨he, by simp [hu', hc']⟩) hsame

theorem refused_signedAmount {error : Fault} (h : signedAmount mv.type mv.amount = .error error) :
    mv.Refused error b := by
  rintro code rfl
  unfold signedAmount at h
  split at h
  · cases h
  · split at h <;> cases h

theorem refused_validation {code field : String} : mv.Refused (.validation code field) b := by
  rintro code ⟨⟩

theorem moveHeld_meets (hm : m.subscriptions = []) :
    (moveHeld .rowLock mv.userId mv.currencyId mv.type mv.amount mv.description mv.key
      mv.benefitGrantId).Meets mv.contract mv.EndedHeld .holding m b b := by
  simp only [moveHeld, meets_bind]
  refine meets_held hm fun held m hm _ hu hc ha => ?_
  have hentries := (rests_holding mv.userId mv.currencyId b).entries
  simp only [settledByKey, ending_ok, meets_bind, meets_query]
  cases hfind : (holding mv.userId mv.currencyId b).transactions.find
      (·.idempotencyKey == mv.key) with
  | some settled =>
    have hkey : settled.idempotencyKey = mv.key := by simpa using Table.find_holds hfind
    simp only [Discipline.rowLock, unlock, meets_bind, meets_execute, meets_publish, ending_ok,
      meets_pure]
    exact ⟨.left, guar_left _ _, trivial,
      fun t ht => ⟨ht.1 settled (Table.mem_of_find hfind), hkey⟩⟩
  | none =>
    have hnone : ∀ e ∈ b.transactions, e.idempotencyKey ≠ mv.key := by
      intro e he
      rw [← hentries] at he
      simpa using Table.find_none hfind he
    simp only [Discipline.rowLock, meets_bind, meets_yield, ending_ok]
    refine ⟨.holding, rfl, trivial, fun t ht => ?_⟩
    obtain ⟨hsame, hamount⟩ := ht.2 rfl
    obtain ⟨row, hrow, -⟩ := find_holding mv.userId mv.currencyId t
    split
    · rename_i error he
      exact ⟨rfl, refused_signedAmount he⟩
    · rename_i signed hs
      split_ifs with hlow hhigh
      · exact ⟨rfl, refused_validation⟩
      · exact ⟨rfl, refused_validation⟩
      · refine writeMovement_meets hm hs hrow hu hc (ha.trans hamount.symm)
          ⟨Int.not_lt.mp hlow, Int.not_lt.mp hhigh⟩ fun e he => ?_
        rw [hsame] at he
        exact hnone e (Table.mem_select.mp he).1

/-- A movement takes its row where nobody holds it, and lets go of it whatever happens. -/
theorem critical_meets (hm : m.subscriptions = []) (hfree : b.locks.contains mv.pair = false) :
    (do
      execute (fun s => { s with locks := mv.pair :: s.locks })
      publish
      attempt (moveHeld .rowLock mv.userId mv.currencyId mv.type mv.amount mv.description mv.key
        mv.benefitGrantId) (fun error => do
        rollback
        unlock mv.userId mv.currencyId
        publish
        raise error) : Db CreditTransaction).Meets mv.contract mv.Ended .looking m b b := by
  simp only [meets_bind, meets_execute, ending_ok, meets_publish, meets_attempt]
  refine ⟨.holding, ⟨⟨rfl, fun _ _ => rfl⟩, rfl, by simpa using hfree⟩, trivial, fun t _ => ?_⟩
  refine (moveHeld_meets hm).mono ?_
  rintro phase (error | ⟨e, m⟩) b v h
  · obtain ⟨rfl, hrefused⟩ := h
    simp only [ending_error, rollback, unlock, meets_bind, meets_revert, meets_remember,
      meets_execute, meets_publish, meets_raise, ending_ok]
    refine ⟨.left, ⟨⟨rfl, fun _ _ => rfl⟩, rfl⟩, trivial, fun t ht => ⟨by simp, fun code hc => ?_⟩⟩
    obtain ⟨e, he, hother⟩ := hrefused code hc
    exact ⟨e, ht.1 e he, hother⟩
  · exact h

theorem serve_meets (hm : m.subscriptions = []) :
    mv.serve.Meets mv.contract mv.Ended .start m b b := by
  simp only [serve, move, settledByKey, meets_bind, meets_query, ending_ok]
  cases hfind : b.transactions.find (·.idempotencyKey == mv.key) with
  | some existing =>
    exact ⟨Table.mem_of_find hfind, by simpa using Table.find_holds hfind⟩
  | none =>
    have hnone : ∀ e ∈ b.transactions, e.idempotencyKey ≠ mv.key := by
      intro e he
      simpa using Table.find_none hfind he
    simp only [Discipline.rowLock, meets_bind, meets_publish, ending_ok, meets_query]
    refine ⟨.looking, ⟨rfl, hnone⟩, trivial, fun t _ => ?_⟩
    have hgone : mv.Refused .attributeError t := by rintro code ⟨⟩
    cases t.catalog.users.find? (·.id == mv.userId) with
    | none => exact ⟨by simp, hgone⟩
    | some user =>
      simp only [meets_require_some, ending_ok, meets_bind, meets_query]
      cases t.catalog.currencies.find? (·.id == mv.currencyId) with
      | none => exact ⟨by simp, hgone⟩
      | some currency =>
        simp only [meets_require_some, ending_ok]
        split_ifs
        · exact ⟨by simp, refused_validation⟩
        · rw [meets_bind, meets_await (by simp [contract])]
          refine ⟨fun hready => critical_meets hm (by simpa [pair] using hready), fun _ => ?_⟩
          refine ⟨.looking, rfl, trivial, fun t _ hready => ?_⟩
          exact critical_meets hm (by simpa [pair] using hready)

/-- A segment leaves the ledger alone, or writes what was asked for and lets go. -/
theorem guar_cases {phase phase' : Phase} (h : mv.guar phase b phase' t) :
    (phase ≠ .wrote ∧ phase' ≠ .wrote ∧ Rests b t) ∨
      (phase = .holding ∧ phase' = .wrote ∧ ∃ e, mv.Asked e ∧ Moved e b t) := by
  cases phase <;> cases phase' <;> simp only [guar] at h
  · obtain ⟨rfl, -⟩ := h
    exact .inl ⟨by simp, by simp, rfl, fun _ _ => rfl⟩
  · subst h
    exact .inl ⟨by simp, by simp, rfl, fun _ _ => rfl⟩
  · exact .inl ⟨by simp, by simp, h.1⟩
  · subst h
    exact .inl ⟨by simp, by simp, rfl, fun _ _ => rfl⟩
  · exact .inl ⟨by simp, by simp, h.1⟩
  · obtain ⟨e, ha, hmoved, -⟩ := h
    exact .inr ⟨rfl, rfl, e, ha, hmoved⟩

/-- A segment lets go of no row but its own. -/
theorem guar_locks {phase phase' : Phase} (h : mv.guar phase b phase' t) {pair : ℕ × ℕ}
    (hp : pair ∈ b.locks) (hne : phase = .holding → pair ≠ mv.pair) : pair ∈ t.locks := by
  cases phase <;> cases phase' <;> simp only [guar] at h
  · rwa [h.1]
  · rwa [h]
  · rw [h.2.1]
    exact List.mem_cons_of_mem _ hp
  · rwa [h]
  · rw [h.2]
    exact (List.mem_erase_of_ne (hne rfl)).mpr hp
  · obtain ⟨e, -, -, hl⟩ := h
    rw [hl]
    exact (List.mem_erase_of_ne (hne rfl)).mpr hp

/-- Who holds a row after a segment held it before, or took it where nobody did. -/
theorem guar_holding {phase : Phase} (h : mv.guar phase b .holding t) :
    mv.pair ∈ t.locks ∧ mv.pair ∉ b.locks ∨ phase = .holding ∧ t = b := by
  cases phase <;> simp only [guar] at h
  · exact .inl ⟨by rw [h.2.1]; exact List.mem_cons_self .., h.2.2⟩
  · exact .inr ⟨rfl, h⟩

end Movement

/-- The contract of the session at a place of a pool of movements. -/
def contractAt (mvs : List Movement) (i : ℕ) : Contract Phase Memory Store :=
  match mvs[i]? with
  | some mv => mv.contract
  | none => ⟨fun _ _ _ => True, fun _ _ _ _ => False, fun _ _ => True, False⟩

/-- What the sessions of a pool of movements have to do with the store: its balances are
explained, and no two of them hold one row. -/
structure Serialised (mvs : List Movement) (phases : ℕ → Phase) (s : Store) : Prop where
  balanced : Balanced s
  locked : ∀ {i mv}, mvs[i]? = some mv → phases i = .holding → mv.pair ∈ s.locks
  apart : ∀ {i j mv mv'}, i ≠ j → mvs[i]? = some mv → mvs[j]? = some mv' →
    phases i = .holding → phases j = .holding → mv.pair ≠ mv'.pair

variable {mvs : List Movement} {phases : ℕ → Phase} {s t : Store} {i : ℕ}

theorem guar_contractAt {phase : Phase} (h : (contractAt mvs i).guar (phases i) s phase t) :
    ∃ mv, mvs[i]? = some mv ∧ mv.guar (phases i) s phase t := by
  unfold contractAt at h
  split at h
  · rename_i mv hmv
    exact ⟨mv, hmv, h⟩
  · exact h.elim

theorem Serialised.step (h : Serialised mvs phases s) {phase : Phase}
    (hg : (contractAt mvs i).guar (phases i) s phase t) :
    Serialised mvs (Function.update phases i phase) t := by
  obtain ⟨mv, hmv, hg⟩ := guar_contractAt hg
  -- who holds a row beside the session under way holds another one
  have hother : ∀ {j mv'}, j ≠ i → mvs[j]? = some mv' → phases j = .holding →
      mv'.pair ∈ s.locks ∧ (phases i = .holding → mv'.pair ≠ mv.pair) := fun hj hmv' hp =>
    ⟨h.locked hmv' hp, fun hi => h.apart hj hmv' hmv hp hi⟩
  refine ⟨?_, ?_, ?_⟩
  · rcases mv.guar_cases hg with ⟨-, -, hrests⟩ | ⟨-, -, e, -, hmoved⟩
    · exact hrests.balanced h.balanced
    · exact hmoved.balanced h.balanced
  · intro j mv' hmv' hp
    by_cases hj : j = i
    · subst hj
      rw [Function.update_self] at hp
      subst hp
      obtain rfl := Option.some.inj (hmv.symm.trans hmv')
      rcases mv.guar_holding hg with ⟨hin, -⟩ | ⟨hphase, rfl⟩
      · exact hin
      · exact h.locked hmv hphase
    · rw [Function.update_of_ne hj] at hp
      exact mv.guar_locks hg (hother hj hmv' hp).1 (hother hj hmv' hp).2
  · intro j k mv₁ mv₂ hjk hmv₁ hmv₂ hp₁ hp₂
    have htaken : ∀ {l mv'}, l ≠ i → mvs[l]? = some mv' → phases l = .holding → phase = .holding →
        mv'.pair ≠ mv.pair := by
      intro l mv' hl hmv' hp hphase
      subst hphase
      rcases mv.guar_holding hg with ⟨-, hout⟩ | ⟨hphase, -⟩
      · exact fun hsame => hout (hsame ▸ (hother hl hmv' hp).1)
      · exact (hother hl hmv' hp).2 hphase
    by_cases hj : j = i
    · subst hj
      have hk : k ≠ j := Ne.symm hjk
      rw [Function.update_self] at hp₁
      rw [Function.update_of_ne hk] at hp₂
      obtain rfl := Option.some.inj (hmv.symm.trans hmv₁)
      exact Ne.symm (htaken hk hmv₂ hp₂ hp₁)
    · rw [Function.update_of_ne hj] at hp₁
      by_cases hk : k = i
      · subst hk
        rw [Function.update_self] at hp₂
        obtain rfl := Option.some.inj (hmv.symm.trans hmv₂)
        exact htaken hj hmv₁ hp₁ hp₂
      · rw [Function.update_of_ne hk] at hp₂
        exact h.apart hjk hmv₁ hmv₂ hp₁ hp₂

/-- A movement beside those that hold other rows moves nothing they hold. -/
theorem Serialised.rely (h : Serialised mvs phases s) {phase : Phase}
    (hg : (contractAt mvs i).guar (phases i) s phase t) {j : ℕ} (hij : i ≠ j) :
    (contractAt mvs j).rely (phases j) s t := by
  obtain ⟨mv, hmv, hg⟩ := guar_contractAt hg
  unfold contractAt
  split
  · rename_i mv' hmv'
    rcases mv.guar_cases hg with ⟨-, -, hrests⟩ | ⟨hi, -, e, hasked, hmoved⟩
    · exact ⟨fun _ => hrests.kept, fun _ => ⟨hrests.entriesOf, hrests.amounts _ _⟩⟩
    · refine ⟨fun _ => hmoved.kept, fun hj => ?_⟩
      have hne : (e.userId, e.currencyId) ≠ (mv'.userId, mv'.currencyId) := by
        rw [hasked.pair]
        exact h.apart hij hmv hmv' hi hj
      exact ⟨by rw [hmoved.entriesOf, if_neg hne, List.append_nil], hmoved.others _ _ hne⟩
  · trivial

/-- Every turn leaves the ledger alone or writes what its movement asked for. -/
theorem Explained.turns {trace : List (Turn Store)} {first : ℕ → Phase}
    (h : Pool.Explained (contractAt mvs) first trace phases) : ∀ t ∈ trace,
    Rests t.before t.after ∨
      ∃ mv e, mvs[t.who]? = some mv ∧ mv.Asked e ∧ Moved e t.before t.after := by
  induction h with
  | start => simp
  | turn stage past kept ih =>
    intro t ht
    rcases List.mem_append.mp ht with ht | ht
    · exact ih t ht
    · obtain rfl := List.mem_singleton.mp ht
      obtain ⟨mv, hmv, hg⟩ := guar_contractAt kept
      rcases mv.guar_cases hg with ⟨-, -, hrests⟩ | ⟨-, -, e, hasked, hmoved⟩
      · exact .inl hrests
      · exact .inr ⟨mv, e, hmv, hasked, hmoved⟩
  | idle past kept ih =>
    intro t ht
    rcases List.mem_append.mp ht with ht | ht
    · exact ih t ht
    · obtain rfl := List.mem_singleton.mp ht
      rw [kept]
      exact .inl ⟨rfl, fun _ _ => rfl⟩

end FastKit
