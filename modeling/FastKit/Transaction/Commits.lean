import FastKit.Transaction.Contract

/-! # What a session commits alone

The stores a session publishes with nobody else running, and the two ways to speak of them:
what holds of each of them, and what holds of the first one.
-/

namespace FastKit.Transaction

namespace Outcome
variable {γ μ σ ε α : Type}

/-- The stores a session publishes with nobody else running, the first one first. -/
def commits : Outcome μ σ ε α → List σ
  | .done _ _ => []
  | .pause _ view _ next => view :: (next view).commits

end Outcome

/-- A session that runs alone and publishes only what `P` holds of. -/
def solo {γ μ σ : Type} (P : σ → Prop) : Contract γ μ σ where
  rely := fun _ s t => s = t
  guar := fun _ _ _ t => P t
  shows := fun _ _ => True
  prompt := True

/-- A session whose first publication is one `P` holds of, whatever follows it. -/
def first {γ μ σ : Type} (P : σ → Prop) : Contract γ μ σ where
  rely := fun _ _ _ => False
  guar := fun _ _ _ t => P t
  shows := fun _ _ => True
  prompt := False

namespace Outcome
variable {γ μ σ ε α : Type} {P : σ → Prop} {post : γ → Except ε α → σ → σ → Prop}

theorem Meets.commits {o : Outcome μ σ ε α} {g : γ} {b : σ} (ho : o.Meets (solo P) post g b) :
    ∀ t ∈ o.commits, P t := by
  induction o generalizing g b with
  | done view result => exact fun _ h => absurd h List.not_mem_nil
  | pause memory view ready next ih =>
    obtain ⟨g', hP, -, hprompt, hnext⟩ := ho
    intro t ht
    rcases List.mem_cons.mp ht with rfl | ht
    · exact hP
    · exact ih view (hnext view rfl (hprompt trivial view)) t ht

/-- Where nothing is published first, the session ended in an error. -/
theorem Meets.committed {o : Outcome μ σ ε α} {g : γ} {b : σ}
    (ho : o.Meets (first P) (ending (fun _ _ _ _ => False) fun _ _ _ _ => True) g b) {a : α}
    (hrun : (o.run b).1 = .ok a) : ∃ t ∈ o.commits, P t := by
  cases o with
  | done view result =>
    obtain rfl : result = .ok a := hrun
    exact ho.elim
  | pause memory view ready next =>
    obtain ⟨_, hP, -⟩ := ho
    exact ⟨view, List.mem_cons_self, hP⟩

end Outcome

namespace Program
variable {γ μ σ ε α : Type} {P : σ → Prop} {g : γ} {m : μ} {b v : σ}

/-- The stores the program publishes with nobody else running. -/
def commits (c : Program μ σ ε α) (m : μ) (base view : σ) : List σ := (c m base view).commits

theorem solo_publish {post : γ → Except ε (Unit × μ) → σ → σ → Prop} (hP : P v)
    (h : post g (.ok ((), m)) v v) : (publish : Program μ σ ε Unit).Meets (solo P) post g m b v := by
  rw [meets_publish]
  refine ⟨g, hP, trivial, ?_⟩
  rintro _ rfl
  exact h

theorem first_publish {post : γ → Except ε (Unit × μ) → σ → σ → Prop} (hP : P v) :
    (publish : Program μ σ ε Unit).Meets (first P) post g m b v := by
  rw [meets_publish]
  exact ⟨g, hP, trivial, fun _ h => h.elim⟩

end Program
end FastKit.Transaction
