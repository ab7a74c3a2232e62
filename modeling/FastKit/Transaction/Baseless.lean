import FastKit.Transaction.Contract

/-! # Programs that never look back

What a segment started on is only read where a program forgets what it wrote. A program
that does so at most on its way to an error runs alike from every store its segment may
have started on, and one that publishes before it ends has left that store behind.
-/

namespace FastKit.Transaction

namespace Outcome
variable {μ σ ε α β : Type}

/-- Two outcomes that differ at most in the view an error leaves. -/
inductive Alike : Outcome μ σ ε α → Outcome μ σ ε α → Prop where
  | same (o : Outcome μ σ ε α) : Alike o o
  | failed (view view' : σ) (e : ε) : Alike (.done view (.error e)) (.done view' (.error e))

theorem Alike.andThen {o o' : Outcome μ σ ε α} (h : Alike o o') {f : α → σ → σ → Outcome μ σ ε β}
    {b b' : σ} (hf : ∀ a view, o = .done view (.ok a) → Alike (f a b view) (f a b' view)) :
    Alike (o.andThen f b) (o'.andThen f b') := by
  cases h with
  | failed view view' e => exact .failed view view' e
  | same o =>
    cases o with
    | done view result =>
      cases result with
      | ok a => exact hf a view rfl
      | error e => exact .same _
    | pause memory view ready next => exact .same _

end Outcome

namespace Program
variable {γ μ σ ε α β : Type} {c : Program μ σ ε α} {f : α → Program μ σ ε β}

/-- A program whose first segment does not depend on the store it started on. -/
def Baseless (c : Program μ σ ε α) : Prop := ∀ m b b' v, (c m b v).Alike (c m b' v)

/-- A program that ends its first segment before it ends, unless an error does. -/
def Publishes (c : Program μ σ ε α) : Prop := ∀ m b v view a, c m b v ≠ .done view (.ok a)

theorem baseless_pure (a : α) : Baseless (pure a : Program μ σ ε α) := fun _ _ _ _ => .same _

theorem baseless_query (f : σ → α) : Baseless (query f : Program μ σ ε α) := fun _ _ _ _ => .same _

theorem baseless_execute (f : σ → σ) : Baseless (execute f : Program μ σ ε Unit) :=
  fun _ _ _ _ => .same _

theorem baseless_remembered (f : μ → α) : Baseless (remembered f : Program μ σ ε α) :=
  fun _ _ _ _ => .same _

theorem baseless_remember (f : μ → μ) : Baseless (remember f : Program μ σ ε Unit) :=
  fun _ _ _ _ => .same _

theorem baseless_raise (e : ε) : Baseless (raise e : Program μ σ ε α) := fun _ _ _ _ => .same _

theorem baseless_publish : Baseless (publish : Program μ σ ε Unit) := fun _ _ _ _ => .same _

theorem baseless_require (e : ε) (o : Option α) : Baseless (require e o : Program μ σ ε α) := by
  intro m b b' v
  cases o <;> exact .same _

theorem Baseless.bind (hc : Baseless c) (hf : ∀ a, Baseless (f a)) : Baseless (c >>= f) :=
  fun m b b' v => (hc m b b' v).andThen fun p view _ => hf p.1 p.2 b b' view

/-- Whatever follows a program that publishes starts on another store anyway. -/
theorem Baseless.publishes_bind (hc : Baseless c) (hp : Publishes c) : Baseless (c >>= f) :=
  fun m b b' v => (hc m b b' v).andThen fun p view h => absurd h (hp m b v view p)

theorem Baseless.ite {p : Prop} [Decidable p] {c d : Program μ σ ε α} (hc : Baseless c)
    (hd : Baseless d) : Baseless (if p then c else d) := by
  split_ifs
  · exact hc
  · exact hd

theorem publishes_publish : Publishes (publish : Program μ σ ε Unit) :=
  fun _ _ _ _ _ h => by cases h

theorem Publishes.bind (hc : Publishes c) : Publishes (c >>= f) := by
  intro m b v view a h
  change (c m b v).andThen (fun p => f p.1 p.2) b = _ at h
  cases ho : c m b v with
  | done view' result =>
    cases result with
    | ok p => exact hc m b v view' p ho
    | error e =>
      rw [ho] at h
      cases h
  | pause memory view' ready next =>
    rw [ho] at h
    cases h

theorem publishes_bind (hf : ∀ a, Publishes (f a)) : Publishes (c >>= f) := by
  intro m b v view a h
  change (c m b v).andThen (fun p => f p.1 p.2) b = _ at h
  cases ho : c m b v with
  | done view' result =>
    rw [ho] at h
    cases result with
    | ok p => exact hf p.1 p.2 b view' view a h
    | error e => cases h
  | pause memory view' ready next =>
    rw [ho] at h
    cases h

theorem Publishes.ite {p : Prop} [Decidable p] {c d : Program μ σ ε α} (hc : Publishes c)
    (hd : Publishes d) : Publishes (if p then c else d) := by
  split_ifs
  · exact hc
  · exact hd

/-- An error that is raised again whatever the rescue forgot. -/
theorem Baseless.attempt (hc : Baseless c) {h : ε → Program μ σ ε α}
    (hh : ∀ e m b v, ∃ e' view, h e m b v = .done view (.error e') ∧
      ∀ b' v', ∃ view', h e m b' v' = .done view' (.error e')) : Baseless (attempt c h) := by
  intro m b b' v
  change ((c m b v).handle (fun e => h e m) b).Alike ((c m b' v).handle (fun e => h e m) b')
  have raised : ∀ e view view', (h e m b view).Alike (h e m b' view') := by
    intro e view view'
    obtain ⟨e', w, he, hall⟩ := hh e m b view
    obtain ⟨w', he'⟩ := hall b' view'
    rw [he, he']
    exact .failed w w' e'
  have halike := hc m b b' v
  generalize c m b v = o at halike ⊢
  generalize c m b' v = o' at halike ⊢
  cases halike with
  | failed view view' e => exact raised e view view'
  | same o =>
    cases o with
    | done view result =>
      cases result with
      | ok a => exact .same _
      | error e => exact raised e view view
    | pause memory view ready next => exact .same _

/-- A program that never looks back keeps a contract from any store its segment may have
started on. -/
theorem Meets.rebase {C : Contract γ μ σ} {post : γ → Except ε (α × μ) → σ → σ → Prop} {g : γ}
    {m : μ} {b b' v : σ} (hb : Baseless c) (hp : Publishes c)
    (hg : ∀ g' w, C.guar g b g' w → C.guar g b' g' w)
    (he : ∀ e w w', post g (.error e) b w → post g (.error e) b' w')
    (hc : c.Meets C post g m b v) : c.Meets C post g m b' v := by
  unfold Meets at hc ⊢
  have halike := hb m b b' v
  have hpub := hp m b v
  generalize c m b v = o at hc halike hpub
  generalize c m b' v = o' at halike ⊢
  cases halike with
  | failed view view' e => exact he e view view' hc
  | same o =>
    cases o with
    | done view result =>
      cases result with
      | ok a => exact absurd rfl (hpub view a)
      | error e => exact he e view view hc
    | pause memory view ready next =>
      obtain ⟨g', hguar, hrest⟩ := hc
      exact ⟨g', hg g' view hguar, hrest⟩

end Program
end FastKit.Transaction
