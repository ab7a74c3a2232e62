import FastKit.Transaction.Contract
import Mathlib.Logic.Function.Basic

/-! # Sessions taking turns

A pool is a store and the sessions open on it. A turn runs one segment of one
session; a session that is given no further turn is one whose node died. Runs are
sequences of turns in any order, and a run of sessions that keep their contracts is
explained by a stage for each session that every turn moves as its contract says.
-/

namespace FastKit.Transaction

/-- One turn: which session took it, and the committed store before and after. -/
structure Turn (σ : Type) where
  who : ℕ
  before : σ
  after : σ

structure Pool (μ σ ε α : Type) where
  store : σ
  sessions : List (Outcome μ σ ε α)

namespace Pool
variable {γ μ σ ε α : Type}

/-- The pool after a turn of session `i`, where there is one and it is ready. -/
def turn (p : Pool μ σ ε α) (i : ℕ) : Option (Pool μ σ ε α) :=
  match p.sessions[i]? with
  | some (.pause _ _ ready next) =>
    if ready p.store then
      some ⟨(next p.store).published p.store, p.sessions.set i (next p.store)⟩
    else none
  | _ => none

/-- The pool after the turns of `order`, one after the other, where each satisfies `ok`. -/
def turns (ok : Pool μ σ ε α → ℕ → Pool μ σ ε α → Prop) [∀ q i r, Decidable (ok q i r)]
    (p : Pool μ σ ε α) : List ℕ → Option (Pool μ σ ε α)
  | [] => some p
  | i :: order => (p.turn i).bind (fun q => if ok p i q then q.turns ok order else none)

/-- Every run of a pool whose turns all satisfy `ok`, with the turns it took. -/
inductive Run (ok : Pool μ σ ε α → ℕ → Pool μ σ ε α → Prop) (p : Pool μ σ ε α) :
    List (Turn σ) → Pool μ σ ε α → Prop where
  | start : Run ok p [] p
  | turn {trace : List (Turn σ)} {q r : Pool μ σ ε α} (i : ℕ) (run : Run ok p trace q)
      (taken : q.turn i = some r) (holds : ok q i r) :
      Run ok p (trace ++ [⟨i, q.store, r.store⟩]) r

variable {ok ok' : Pool μ σ ε α → ℕ → Pool μ σ ε α → Prop} {p q r : Pool μ σ ε α}

theorem turn_eq_some {i : ℕ} (h : p.turn i = some q) :
    ∃ memory view ready next, p.sessions[i]? = some (.pause memory view ready next) ∧
      ready p.store = true ∧
      q = ⟨(next p.store).published p.store, p.sessions.set i (next p.store)⟩ := by
  unfold turn at h
  split at h
  · rename_i memory view ready next hs
    split at h
    · rename_i hr
      exact ⟨memory, view, ready, next, hs, hr, (Option.some.inj h).symm⟩
    · cases h
  · cases h

theorem Run.mono (h : ∀ q i r, ok q i r → ok' q i r) {l : List (Turn σ)} (run : Run ok p l q) :
    Run ok' p l q := by
  induction run with
  | start => exact .start
  | turn i _ taken holds ih => exact .turn i ih taken (h _ _ _ holds)

theorem Run.append {l k : List (Turn σ)} (h : Run ok p l q) (h' : Run ok q k r) :
    Run ok p (l ++ k) r := by
  induction h' with
  | start => simpa using h
  | turn i _ taken holds ih => rw [← List.append_assoc]; exact .turn i ih taken holds

/-- A session that took no turn is the one the run started with. -/
theorem Run.untouched {l : List (Turn σ)} (run : Run ok p l q) {i : ℕ}
    (h : ∀ t ∈ l, t.who ≠ i) : q.sessions[i]? = p.sessions[i]? := by
  induction run with
  | start => rfl
  | @turn trace q r j run taken _ ih =>
    have hne : j ≠ i := h _ (List.mem_append_right _ (List.mem_singleton.mpr rfl))
    obtain ⟨_, _, _, _, _, _, rfl⟩ := turn_eq_some taken
    rw [List.getElem?_set_ne hne]
    exact ih (fun t ht => h t (List.mem_append_left _ ht))

theorem run_of_turns [∀ q i r, Decidable (ok q i r)] {order : List ℕ}
    (h : p.turns ok order = some q) :
    ∃ trace, Run ok p trace q ∧ trace.map Turn.who = order := by
  induction order generalizing p with
  | nil => cases h; exact ⟨[], .start, rfl⟩
  | cons i order ih =>
    obtain ⟨r, hr, hq⟩ := Option.bind_eq_some_iff.mp h
    split_ifs at hq with hok
    obtain ⟨trace, ht, hwho⟩ := ih hq
    exact ⟨_, (Run.turn i .start hr hok).append ht, by simp [hwho]⟩

/-- A run in the order of `order`, to a pool a test holds of. -/
theorem exists_run (ok : Pool μ σ ε α → ℕ → Pool μ σ ε α → Prop) [∀ q i r, Decidable (ok q i r)]
    (p : Pool μ σ ε α) (order : List ℕ) (test : Pool μ σ ε α → Prop) [DecidablePred test]
    (h : (p.turns ok order).any test = true) : ∃ trace q, Run ok p trace q ∧ test q := by
  obtain ⟨q, hq, ht⟩ := (Option.any_eq_true _ _).mp h
  obtain ⟨trace, run, -⟩ := run_of_turns hq
  exact ⟨trace, q, run, of_decide_eq_true ht⟩

/-- A session waiting for its turn at the store `s` keeps its contract from there on, and
one that ended did end as its contract says, on a store from which `since` leads to `s`. -/
def Waits (C : Contract γ μ σ) (since : σ → σ → Prop) (post : γ → Except ε α → σ → σ → Prop) :
    Outcome μ σ ε α → γ → σ → Prop
  | .done view result, g, s => ∃ base, since base s ∧ post g result base view
  | .pause memory _ ready next, g, s => C.shows g memory ∧
      ∀ t, C.rely g s t → ready t = true → (next t).Meets C post g t

/-- Turns that move the stage of the session taking them as its contract promises. -/
inductive Explained (C : ℕ → Contract γ μ σ) :
    (ℕ → γ) → List (Turn σ) → (ℕ → γ) → Prop where
  | start (g : ℕ → γ) : Explained C g [] g
  | turn {g h : ℕ → γ} {trace : List (Turn σ)} {t : Turn σ} (stage : γ)
      (past : Explained C g trace h) (kept : (C t.who).guar (h t.who) t.before stage t.after) :
      Explained C g (trace ++ [t]) (Function.update h t.who stage)
  | idle {g h : ℕ → γ} {trace : List (Turn σ)} {t : Turn σ} (past : Explained C g trace h)
      (kept : t.after = t.before) : Explained C g (trace ++ [t]) h

/-- What every contract guarantees of a turn, and a turn that publishes nothing too, holds of
every turn. -/
theorem Explained.related {C : ℕ → Contract γ μ σ} {R : σ → σ → Prop} (hr : ∀ s, R s s)
    (hg : ∀ i g s g' t, (C i).guar g s g' t → R s t) {g h : ℕ → γ} {trace : List (Turn σ)}
    (past : Explained C g trace h) : ∀ t ∈ trace, R t.before t.after := by
  induction past with
  | start => exact fun _ ht => absurd ht List.not_mem_nil
  | turn stage _ kept ih =>
    intro t ht
    rcases List.mem_append.mp ht with ht | ht
    · exact ih t ht
    · obtain rfl := List.mem_singleton.mp ht
      exact hg _ _ _ _ _ kept
  | idle _ kept ih =>
    intro t ht
    rcases List.mem_append.mp ht with ht | ht
    · exact ih t ht
    · obtain rfl := List.mem_singleton.mp ht
      rw [kept]
      exact hr _

/-- What a session shows as it waits for its turn. -/
def Shown (C : ℕ → Contract γ μ σ) (h : ℕ → γ) (q : Pool μ σ ε α) (i : ℕ) : Prop :=
  ∃ m, q.sessions[i]?.bind Outcome.memory? = some m ∧ (C i).shows (h i) m

/-- What the sessions of a pool have to be compatible in: each relies on no more than what
the others guarantee in a turn that satisfies `ok`, given what holds of the store and the
stages of all of them. -/
structure Compatible (ok : Pool μ σ ε α → ℕ → Pool μ σ ε α → Prop) (C : ℕ → Contract γ μ σ)
    (since : σ → σ → Prop) (holds : (ℕ → γ) → σ → Prop) : Prop where
  refl : ∀ i g s, (C i).rely g s s
  trans : ∀ i g s t u, (C i).rely g s t → (C i).rely g t u → (C i).rely g s u
  since_refl : ∀ s, since s s
  since_trans : ∀ s t u, since s t → since t u → since s u
  since_guar : ∀ {q r i g' h}, ok q i r → holds h q.store → Shown C h q i →
    (C i).guar (h i) q.store g' r.store → since q.store r.store
  kept : ∀ {q r i g' h}, ok q i r → holds h q.store → Shown C h q i →
    (C i).guar (h i) q.store g' r.store → holds (Function.update h i g') r.store
  others : ∀ {q r i j g' h}, ok q i r → holds h q.store → Shown C h q i → i ≠ j →
    Shown C h q j → (C i).guar (h i) q.store g' r.store → (C j).rely (h j) q.store r.store

theorem Waits.rely {C : Contract γ μ σ} {since : σ → σ → Prop}
    (ht : ∀ g s t u, C.rely g s t → C.rely g t u → C.rely g s u)
    (hs : ∀ s t u, since s t → since t u → since s u)
    {post : γ → Except ε α → σ → σ → Prop} {o : Outcome μ σ ε α} {g : γ} {s t : σ}
    (h : Waits C since post o g s) (hsince : since s t)
    (hst : ∀ m, o.memory? = some m → C.shows g m → C.rely g s t) : Waits C since post o g t := by
  cases o with
  | done view result =>
    obtain ⟨base, hb, hp⟩ := h
    exact ⟨base, hs _ _ _ hb hsince, hp⟩
  | pause memory view ready next =>
    exact ⟨h.1, fun u hu => h.2 u (ht _ _ _ _ (hst memory rfl h.1) hu)⟩

/-- After a turn of a session that keeps its contract from there on, the sessions of the pool
go on keeping theirs, at the stages the turn left. -/
theorem Compatible.turn {C : ℕ → Contract γ μ σ} {since : σ → σ → Prop}
    {holds : (ℕ → γ) → σ → Prop} (hC : Compatible ok C since holds)
    {post : ℕ → γ → Except ε α → σ → σ → Prop} {h : ℕ → γ} {i : ℕ} (hh : holds h q.store)
    (hw : ∀ j o, j ≠ i → q.sessions[j]? = some o → Waits (C j) since (post j) o (h j) q.store)
    (taken : q.turn i = some r) (allowed : ok q i r) (shown : Shown C h q i)
    (hi : ∀ memory view ready next, q.sessions[i]? = some (.pause memory view ready next) →
      ready q.store = true → (next q.store).Meets (C i) (post i) (h i) q.store) :
    ∃ h', (h' = h ∧ r.store = q.store ∨
        ∃ g', h' = Function.update h i g' ∧ (C i).guar (h i) q.store g' r.store) ∧
      holds h' r.store ∧
      ∀ j o, r.sessions[j]? = some o → Waits (C j) since (post j) o (h' j) r.store := by
  obtain ⟨memory, view, ready, next, hget, hready, rfl⟩ := turn_eq_some taken
  have hmeets := hi memory view ready next hget hready
  have hlt : i < q.sessions.length := (List.getElem?_eq_some_iff.mp hget).1
  -- the session that took the turn either ended, publishing nothing, or waits again
  cases hnext : next q.store with
  | done view' result =>
    rw [hnext] at hmeets
    refine ⟨h, .inl ⟨rfl, rfl⟩, hh, fun j o hj => ?_⟩
    rw [List.getElem?_set] at hj
    split at hj
    · rename_i hij
      subst hij
      cases hj
      exact ⟨_, hC.since_refl _, hmeets⟩
    · rename_i hij
      exact hw j o (Ne.symm hij) hj
  | pause memory' view' ready' next' =>
    rw [hnext] at hmeets allowed
    obtain ⟨g', hguar, hshows, -, hrest⟩ := hmeets
    refine ⟨Function.update h i g', .inr ⟨g', rfl, hguar⟩, hC.kept allowed hh shown hguar,
      fun j o hj => ?_⟩
    rw [List.getElem?_set] at hj
    split at hj
    · rename_i hij
      subst hij
      cases hj
      rw [Function.update_self]
      exact ⟨hshows, hrest⟩
    · rename_i hij
      rw [Function.update_of_ne (Ne.symm hij)]
      exact (hw j o (Ne.symm hij) hj).rely (hC.trans j) hC.since_trans
        (hC.since_guar allowed hh shown hguar) (fun m hm hsh => hC.others allowed hh shown hij
          ⟨m, by rw [hj, Option.bind_some, hm], hsh⟩ hguar)

/-- Every run of sessions that keep compatible contracts is explained by their stages,
and each session goes on keeping its contract where the run leaves it. -/
theorem Run.explained {C : ℕ → Contract γ μ σ} {since : σ → σ → Prop}
    {holds : (ℕ → γ) → σ → Prop} (hC : Compatible ok C since holds)
    {post : ℕ → γ → Except ε α → σ → σ → Prop} {trace : List (Turn σ)} {g : ℕ → γ}
    (start : holds g p.store)
    (hp : ∀ i o, p.sessions[i]? = some o → Waits (C i) since (post i) o (g i) p.store)
    (run : Run ok p trace q) : ∃ h, Explained C g trace h ∧ holds h q.store ∧
      ∀ i o, q.sessions[i]? = some o → Waits (C i) since (post i) o (h i) q.store := by
  induction run with
  | start => exact ⟨g, .start g, start, hp⟩
  | @turn trace q r i _ taken allowed ih =>
    obtain ⟨h, hex, hh, hw⟩ := ih
    obtain ⟨memory, view, ready, next, hget, -, -⟩ := turn_eq_some taken
    obtain ⟨h', hstep, hh', hw'⟩ := hC.turn hh (fun j o _ hj => hw j o hj) taken allowed
      ⟨memory, by rw [hget]; rfl, (hw i _ hget).1⟩
      fun _ _ _ _ hi hready => (hw i _ hi).2 q.store (hC.refl i _ _) hready
    refine ⟨h', ?_, hh', hw'⟩
    rcases hstep with ⟨rfl, hsame⟩ | ⟨g', rfl, hguar⟩
    · exact .idle hex hsame
    · exact .turn g' hex hguar

/-- What the turns of such a run amount to. -/
theorem Run.since {C : ℕ → Contract γ μ σ} {since : σ → σ → Prop} {holds : (ℕ → γ) → σ → Prop}
    (hC : Compatible ok C since holds) {post : ℕ → γ → Except ε α → σ → σ → Prop}
    {trace : List (Turn σ)} {g : ℕ → γ} (start : holds g p.store)
    (hp : ∀ i o, p.sessions[i]? = some o → Waits (C i) since (post i) o (g i) p.store)
    (run : Run ok p trace q) : since p.store q.store := by
  induction run with
  | start => exact hC.since_refl _
  | @turn trace q r i past taken allowed ih =>
    obtain ⟨h, -, hh, hw⟩ := past.explained hC start hp
    obtain ⟨memory, view, ready, next, hget, -, -⟩ := turn_eq_some taken
    have shown : Shown C h q i := ⟨memory, by rw [hget]; rfl, (hw i _ hget).1⟩
    obtain ⟨h', hstep, -, -⟩ := hC.turn hh (fun j o _ hj => hw j o hj) taken allowed shown
      fun _ _ _ _ hi hready => (hw i _ hi).2 q.store (hC.refl i _ _) hready
    rcases hstep with ⟨-, hsame⟩ | ⟨g', -, hguar⟩
    · rw [hsame]
      exact ih
    · exact hC.since_trans _ _ _ ih (hC.since_guar allowed hh shown hguar)

/-- A turn of such a run either ends its session, which publishes nothing more, or is one
its contract promises. -/
theorem Run.taken {C : ℕ → Contract γ μ σ} {since : σ → σ → Prop} {holds : (ℕ → γ) → σ → Prop}
    (hC : Compatible ok C since holds) {post : ℕ → γ → Except ε α → σ → σ → Prop}
    {trace : List (Turn σ)} {g : ℕ → γ} (start : holds g p.store)
    (hp : ∀ i o, p.sessions[i]? = some o → Waits (C i) since (post i) o (g i) p.store)
    (run : Run ok p trace q) {i : ℕ} (turn : q.turn i = some r) :
    ∃ h m o, holds h q.store ∧ q.sessions[i]?.bind Outcome.memory? = some m ∧
      (C i).shows (h i) m ∧ r.sessions[i]? = some o ∧
      ((∃ view result, o = .done view result ∧ r.store = q.store ∧ post i (h i) result q.store view) ∨
        ∃ m' g', o.memory? = some m' ∧ (C i).guar (h i) q.store g' r.store ∧ (C i).shows g' m') := by
  obtain ⟨h, -, hh, hw⟩ := run.explained hC start hp
  obtain ⟨memory, view, ready, next, hi, hready, rfl⟩ := turn_eq_some turn
  obtain ⟨hshows, hnext⟩ := hw i _ hi
  have hmeets := hnext q.store (hC.refl i _ _) hready
  have hlt : i < q.sessions.length := (List.getElem?_eq_some_iff.mp hi).1
  refine ⟨h, memory, next q.store, hh, by rw [hi]; rfl, hshows,
    by rw [List.getElem?_set_self hlt], ?_⟩
  cases hout : next q.store with
  | done view' result =>
    rw [hout] at hmeets
    exact .inl ⟨view', result, rfl, rfl, hmeets⟩
  | pause memory' view' ready' next' =>
    rw [hout] at hmeets
    obtain ⟨g', hguar, hshows', -⟩ := hmeets
    exact .inr ⟨memory', g', rfl, hguar, hshows'⟩

end Pool
end FastKit.Transaction
