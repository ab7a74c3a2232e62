import FastKit.Transaction.Program

/-! # Rely and guarantee over the segments of a session

A contract says what a session may expect of the store while it waits and what each
of its own segments promises. A session passes through stages, which a promise may
read and move, so that a promise can speak of what the session has done so far.
-/

namespace FastKit.Transaction

/-- What a session relies on between its segments and guarantees of each of them.
A waiting session's memory `shows` its stage, and a `prompt` session never waits for
anything but its turn. -/
structure Contract (γ μ σ : Type) where
  rely : γ → σ → σ → Prop
  guar : γ → σ → γ → σ → Prop
  shows : γ → μ → Prop
  prompt : Prop

/-- A condition on how a program ended: `ok` of its value, `err` of its error. -/
def ending {γ σ ε α : Type} (ok : γ → α → σ → σ → Prop) (err : γ → ε → σ → σ → Prop) :
    γ → Except ε α → σ → σ → Prop
  | g, .ok a, b, v => ok g a b v
  | g, .error e, b, v => err g e b v

@[simp] theorem ending_ok {γ σ ε α : Type} {ok : γ → α → σ → σ → Prop}
    {err : γ → ε → σ → σ → Prop} {g : γ} {a : α} {b v : σ} :
    ending ok err g (.ok a) b v ↔ ok g a b v := Iff.rfl

@[simp] theorem ending_error {γ σ ε α : Type} {ok : γ → α → σ → σ → Prop}
    {err : γ → ε → σ → σ → Prop} {g : γ} {e : ε} {b v : σ} :
    ending ok err g (.error e) b v ↔ err g e b v := Iff.rfl

/-- How a run goes on from where its first part ended. -/
def onward {σ ε α β : Type} (ok : α → σ → σ → Except ε β × σ × σ)
    (err : ε → σ → σ → Except ε β × σ × σ) : Except ε α × σ × σ → Except ε β × σ × σ
  | (.ok a, b, v) => ok a b v
  | (.error e, b, v) => err e b v

@[simp] theorem onward_ok {σ ε α β : Type} {ok : α → σ → σ → Except ε β × σ × σ}
    {err : ε → σ → σ → Except ε β × σ × σ} {a : α} {b v : σ} :
    onward ok err (.ok a, b, v) = ok a b v := rfl

@[simp] theorem onward_error {σ ε α β : Type} {ok : α → σ → σ → Except ε β × σ × σ}
    {err : ε → σ → σ → Except ε β × σ × σ} {e : ε} {b v : σ} :
    onward ok err (.error e, b, v) = err e b v := rfl

namespace Outcome
variable {γ μ σ ε α β : Type}

/-- Every segment left keeps the guarantee as long as the rely holds in between, and
the end satisfies `post`. -/
def Meets (C : Contract γ μ σ) (post : γ → Except ε α → σ → σ → Prop) :
    Outcome μ σ ε α → γ → σ → Prop
  | .done view result, g, base => post g result base view
  | .pause memory view ready next, g, base => ∃ g', C.guar g base g' view ∧
      C.shows g' memory ∧ (C.prompt → ∀ t, ready t = true) ∧
      ∀ t, C.rely g' view t → ready t = true → (next t).Meets C post g' t

theorem Meets.mono {C : Contract γ μ σ} {post post' : γ → Except ε α → σ → σ → Prop}
    (h : ∀ g r b v, post g r b v → post' g r b v) {o : Outcome μ σ ε α} {g : γ} {b : σ}
    (ho : o.Meets C post g b) : o.Meets C post' g b := by
  induction o generalizing g b with
  | done view result => exact h _ _ _ _ ho
  | pause memory view ready next ih =>
    obtain ⟨g', hg, hs, hp, hn⟩ := ho
    exact ⟨g', hg, hs, hp, fun t ht hr => ih t (hn t ht hr)⟩

/-- A session that relies on less and promises more keeps the weaker contract too. -/
theorem Meets.weaken {C D : Contract γ μ σ} {post : γ → Except ε α → σ → σ → Prop}
    (hr : ∀ g s t, D.rely g s t → C.rely g s t)
    (hg : ∀ g s g' t, C.guar g s g' t → D.guar g s g' t)
    (hs : ∀ g m, C.shows g m → D.shows g m) (hp : D.prompt → C.prompt)
    {o : Outcome μ σ ε α} {g : γ} {b : σ} (ho : o.Meets C post g b) : o.Meets D post g b := by
  induction o generalizing g b with
  | done view result => exact ho
  | pause memory view ready next ih =>
    obtain ⟨g', hgu, hsh, hpr, hn⟩ := ho
    exact ⟨g', hg _ _ _ _ hgu, hs _ _ hsh, fun h => hpr (hp h),
      fun t ht hre => ih t (hn t (hr _ _ _ ht) hre)⟩

theorem meets_andThen {C : Contract γ μ σ} {post : γ → Except ε β → σ → σ → Prop}
    {f : α → σ → σ → Outcome μ σ ε β} {o : Outcome μ σ ε α} {g : γ} {b : σ} :
    (o.andThen f b).Meets C post g b ↔
      o.Meets C (ending (fun g a b v => (f a b v).Meets C post g b)
        (fun g e => post g (.error e))) g b := by
  induction o generalizing g b with
  | done view result => cases result <;> rfl
  | pause memory view ready next ih => simp only [andThen, Meets, ih]

theorem meets_handle {C : Contract γ μ σ} {post : γ → Except ε α → σ → σ → Prop}
    {h : ε → σ → σ → Outcome μ σ ε α} {o : Outcome μ σ ε α} {g : γ} {b : σ} :
    (o.handle h b).Meets C post g b ↔
      o.Meets C (ending (fun g a => post g (.ok a))
        (fun g e b v => (h e b v).Meets C post g b)) g b := by
  induction o generalizing g b with
  | done view result => cases result <;> rfl
  | pause memory view ready next ih => simp only [handle, Meets, ih]

/-- Alone, a prompt session ends as its contract says. -/
theorem run_of_meets {C : Contract γ μ σ} (hp : C.prompt) (hr : ∀ g s, C.rely g s s)
    {post : γ → Except ε α → σ → σ → Prop} {o : Outcome μ σ ε α} {g : γ} {b : σ}
    (ho : o.Meets C post g b) :
    ∃ g', post g' (o.run b).1 (o.run b).2.1 (o.run b).2.2 := by
  induction o generalizing g b with
  | done view result => exact ⟨g, ho⟩
  | pause memory view ready next ih =>
    obtain ⟨g', -, -, hpr, hn⟩ := ho
    exact ih view (hn view (hr _ _) (hpr hp view))

theorem run_andThen {f : α → σ → σ → Outcome μ σ ε β} {o : Outcome μ σ ε α} {b : σ} :
    (o.andThen f b).run b =
      onward (fun a b v => (f a b v).run b) (fun e b v => (.error e, b, v)) (o.run b) := by
  induction o generalizing b with
  | done view result => cases result <;> rfl
  | pause memory view ready next ih => simp only [andThen, run, ih]

theorem run_handle {h : ε → σ → σ → Outcome μ σ ε α} {o : Outcome μ σ ε α} {b : σ} :
    (o.handle h b).run b =
      onward (fun a b v => (.ok a, b, v)) (fun e b v => (h e b v).run b) (o.run b) := by
  induction o generalizing b with
  | done view result => cases result <;> rfl
  | pause memory view ready next ih => simp only [handle, run, ih]

end Outcome

namespace Program
variable {γ μ σ ε α β : Type}

/-- The program, started at stage `g` with memory `m` on `base` with the view `view`. -/
def Meets (C : Contract γ μ σ) (c : Program μ σ ε α)
    (post : γ → Except ε (α × μ) → σ → σ → Prop) (g : γ) (m : μ) (base view : σ) : Prop :=
  (c m base view).Meets C post g base

variable {C : Contract γ μ σ} {g : γ} {m : μ} {b v : σ}

theorem Meets.mono {c : Program μ σ ε α} {post post' : γ → Except ε (α × μ) → σ → σ → Prop}
    (hc : c.Meets C post g m b v) (h : ∀ g r b v, post g r b v → post' g r b v) :
    c.Meets C post' g m b v := Outcome.Meets.mono h hc

@[simp] theorem meets_pure {a : α} {post : γ → Except ε (α × μ) → σ → σ → Prop} :
    (pure a : Program μ σ ε α).Meets C post g m b v ↔ post g (.ok (a, m)) b v := Iff.rfl

@[simp] theorem meets_bind {c : Program μ σ ε α} {f : α → Program μ σ ε β}
    {post : γ → Except ε (β × μ) → σ → σ → Prop} :
    (c >>= f).Meets C post g m b v ↔
      c.Meets C (ending (fun g p => (f p.1).Meets C post g p.2)
        (fun g e => post g (.error e))) g m b v := Outcome.meets_andThen

theorem Meets.bind {c : Program μ σ ε α} {f : α → Program μ σ ε β}
    {mid : γ → Except ε (α × μ) → σ → σ → Prop} {post : γ → Except ε (β × μ) → σ → σ → Prop}
    (hc : c.Meets C mid g m b v)
    (hok : ∀ g a m b v, mid g (.ok (a, m)) b v → (f a).Meets C post g m b v)
    (herr : ∀ g e b v, mid g (.error e) b v → post g (.error e) b v) :
    (c >>= f).Meets C post g m b v := by
  rw [meets_bind]
  refine hc.mono ?_
  rintro g (e | ⟨a, m⟩) b v h
  · exact herr g e b v h
  · exact hok g a m b v h

@[simp] theorem meets_query {f : σ → α} {post : γ → Except ε (α × μ) → σ → σ → Prop} :
    (query f : Program μ σ ε α).Meets C post g m b v ↔ post g (.ok (f v, m)) b v := Iff.rfl

@[simp] theorem meets_execute {f : σ → σ} {post : γ → Except ε (Unit × μ) → σ → σ → Prop} :
    (execute f : Program μ σ ε Unit).Meets C post g m b v ↔ post g (.ok ((), m)) b (f v) := Iff.rfl

@[simp] theorem meets_remembered {f : μ → α} {post : γ → Except ε (α × μ) → σ → σ → Prop} :
    (remembered f : Program μ σ ε α).Meets C post g m b v ↔ post g (.ok (f m, m)) b v := Iff.rfl

@[simp] theorem meets_remember {f : μ → μ} {post : γ → Except ε (Unit × μ) → σ → σ → Prop} :
    (remember f : Program μ σ ε Unit).Meets C post g m b v ↔ post g (.ok ((), f m)) b v := Iff.rfl

@[simp] theorem meets_raise {e : ε} {post : γ → Except ε (α × μ) → σ → σ → Prop} :
    (raise e : Program μ σ ε α).Meets C post g m b v ↔ post g (.error e) b v := Iff.rfl

@[simp] theorem meets_revert {post : γ → Except ε (Unit × μ) → σ → σ → Prop} :
    (revert : Program μ σ ε Unit).Meets C post g m b v ↔ post g (.ok ((), m)) b b := Iff.rfl

@[simp] theorem meets_publish {post : γ → Except ε (Unit × μ) → σ → σ → Prop} :
    (publish : Program μ σ ε Unit).Meets C post g m b v ↔
      ∃ g', C.guar g b g' v ∧ C.shows g' m ∧
        ∀ t, C.rely g' v t → post g' (.ok ((), m)) t t := by
  simp [Meets, publish, Outcome.Meets]

@[simp] theorem meets_yield {redo : σ → σ} {post : γ → Except ε (Unit × μ) → σ → σ → Prop} :
    (yield redo : Program μ σ ε Unit).Meets C post g m b v ↔
      ∃ g', C.guar g b g' b ∧ C.shows g' m ∧
        ∀ t, C.rely g' b t → post g' (.ok ((), m)) t (redo t) := by
  simp [Meets, yield, Outcome.Meets]

theorem meets_await {ready : σ → Bool} {post : γ → Except ε (Unit × μ) → σ → σ → Prop}
    (hp : ¬C.prompt) :
    (await ready : Program μ σ ε Unit).Meets C post g m b v ↔
      (ready v = true → post g (.ok ((), m)) b v) ∧
      (ready v = false → ∃ g', C.guar g b g' v ∧ C.shows g' m ∧
        ∀ t, C.rely g' v t → ready t = true → post g' (.ok ((), m)) t t) := by
  unfold Meets await
  cases hr : ready v <;> simp [Outcome.Meets, hp]

@[simp] theorem meets_require_some {a : α} {e : ε} {post : γ → Except ε (α × μ) → σ → σ → Prop} :
    (require e (some a) : Program μ σ ε α).Meets C post g m b v ↔ post g (.ok (a, m)) b v := Iff.rfl

@[simp] theorem meets_require_none {e : ε} {post : γ → Except ε (α × μ) → σ → σ → Prop} :
    (require e none : Program μ σ ε α).Meets C post g m b v ↔ post g (.error e) b v := Iff.rfl

@[simp] theorem meets_attempt {c : Program μ σ ε α} {h : ε → Program μ σ ε α}
    {post : γ → Except ε (α × μ) → σ → σ → Prop} :
    (attempt c h).Meets C post g m b v ↔
      c.Meets C (ending (fun g p => post g (.ok p))
        (fun g e => (h e).Meets C post g m)) g m b v := Outcome.meets_handle

theorem meets_ite {p : Prop} [Decidable p] {c d : Program μ σ ε α}
    {post : γ → Except ε (α × μ) → σ → σ → Prop} :
    (if p then c else d).Meets C post g m b v ↔
      (p → c.Meets C post g m b v) ∧ (¬p → d.Meets C post g m b v) := by
  by_cases h : p <;> simp [h]

/-- A program that only reads: it ends in the segment it started in, with nothing written. -/
def Reads (c : Program μ σ ε α) : Prop := ∀ m b v,
  (∃ a, c m b v = .done v (.ok (a, m))) ∨ ∃ e, c m b v = .done v (.error e)

theorem reads_pure (a : α) : (pure a : Program μ σ ε α).Reads := fun _ _ _ => .inl ⟨a, rfl⟩

theorem reads_raise (e : ε) : (raise e : Program μ σ ε α).Reads := fun _ _ _ => .inr ⟨e, rfl⟩

theorem reads_query (f : σ → α) : (query f : Program μ σ ε α).Reads := fun _ _ v => .inl ⟨f v, rfl⟩

theorem reads_require (e : ε) (o : Option α) : (require e o : Program μ σ ε α).Reads := by
  cases o with
  | none => exact reads_raise e
  | some a => exact reads_pure a

theorem reads_ite {p : Prop} [Decidable p] {c d : Program μ σ ε α} (hc : c.Reads) (hd : d.Reads) :
    (if p then c else d).Reads := by
  split_ifs
  · exact hc
  · exact hd

theorem Reads.bind {c : Program μ σ ε α} {f : α → Program μ σ ε β} (hc : c.Reads)
    (hf : ∀ a, (f a).Reads) : (c >>= f).Reads := by
  intro m b v
  have hbind : (c >>= f) m b v = (c m b v).andThen (fun p => f p.1 p.2) b := rfl
  rw [hbind]
  rcases hc m b v with ⟨a, ha⟩ | ⟨e, he⟩
  · rw [ha]
    exact hf a m b v
  · rw [he]
    exact .inr ⟨e, rfl⟩

theorem Reads.meets {c : Program μ σ ε α} (hc : c.Reads)
    {post : γ → Except ε (α × μ) → σ → σ → Prop} (hok : ∀ a, post g (.ok (a, m)) b v)
    (herr : ∀ e, post g (.error e) b v) : c.Meets C post g m b v := by
  unfold Meets
  rcases hc m b v with ⟨a, ha⟩ | ⟨e, he⟩
  · rw [ha]
    exact hok a
  · rw [he]
    exact herr e

@[simp] theorem run_pure {a : α} :
    (pure a : Program μ σ ε α).run m b v = (.ok (a, m), b, v) := rfl

theorem run_bind {c : Program μ σ ε α} {f : α → Program μ σ ε β} :
    (c >>= f).run m b v = onward (fun p => (f p.1).run p.2)
      (fun e b v => (.error e, b, v)) (c.run m b v) := Outcome.run_andThen

@[simp] theorem run_query {f : σ → α} :
    (query f : Program μ σ ε α).run m b v = (.ok (f v, m), b, v) := rfl

@[simp] theorem run_execute {f : σ → σ} :
    (execute f : Program μ σ ε Unit).run m b v = (.ok ((), m), b, f v) := rfl

@[simp] theorem run_remembered {f : μ → α} :
    (remembered f : Program μ σ ε α).run m b v = (.ok (f m, m), b, v) := rfl

@[simp] theorem run_remember {f : μ → μ} :
    (remember f : Program μ σ ε Unit).run m b v = (.ok ((), f m), b, v) := rfl

@[simp] theorem run_raise {e : ε} :
    (raise e : Program μ σ ε α).run m b v = (.error e, b, v) := rfl

@[simp] theorem run_revert :
    (revert : Program μ σ ε Unit).run m b v = (.ok ((), m), b, b) := rfl

@[simp] theorem run_publish :
    (publish : Program μ σ ε Unit).run m b v = (.ok ((), m), v, v) := rfl

@[simp] theorem run_yield {redo : σ → σ} :
    (yield redo : Program μ σ ε Unit).run m b v = (.ok ((), m), b, redo b) := rfl

theorem run_ite {p : Prop} [Decidable p] {c d : Program μ σ ε α} :
    (if p then c else d).run m b v = if p then c.run m b v else d.run m b v := by
  split_ifs <;> rfl

@[simp] theorem run_require_some {a : α} {e : ε} :
    (require e (some a) : Program μ σ ε α).run m b v = (.ok (a, m), b, v) := rfl

theorem run_attempt {c : Program μ σ ε α} {h : ε → Program μ σ ε α} :
    (attempt c h).run m b v = onward (fun p b v => (.ok p, b, v))
      (fun e => (h e).run m) (c.run m b v) := Outcome.run_handle

/-- Alone, a prompt program ends as its contract says. -/
theorem run_of_meets (hp : C.prompt) (hr : ∀ g s, C.rely g s s) {c : Program μ σ ε α}
    {post : γ → Except ε (α × μ) → σ → σ → Prop} (hc : c.Meets C post g m b v) :
    ∃ g', post g' (c.run m b v).1 (c.run m b v).2.1 (c.run m b v).2.2 :=
  Outcome.run_of_meets hp hr hc

end Program
end FastKit.Transaction
