import FastKit.Transaction.Commits

/-! # What a program raises alone

An invariant of what a program remembers and sees, kept with nobody else running, and the errors
it may end in.
-/

namespace FastKit.Transaction.Program
variable {μ σ ε α β : Type} {I : μ → σ → Prop} {P Q : ε → Prop} {c d : Program μ σ ε α}

/-- A program that keeps `I` of what it remembers and sees, and raises only what `P` holds of. -/
def Raises (I : μ → σ → Prop) (P : ε → Prop) (c : Program μ σ ε α) : Prop := ∀ m b v, I m v →
  c.Meets (solo fun _ => True) (ending (fun _ p _ w => I p.2 w) fun _ e _ _ => P e) () m b v

theorem raises_pure (a : α) : (pure a : Program μ σ ε α).Raises I P := fun _ _ _ h => h

theorem raises_query (f : σ → α) : (query f : Program μ σ ε α).Raises I P := fun _ _ _ h => h

theorem raises_remembered (f : μ → α) : (remembered f : Program μ σ ε α).Raises I P :=
  fun _ _ _ h => h

theorem raises_execute {f : σ → σ} (hf : ∀ m v, I m v → I m (f v)) :
    (execute f : Program μ σ ε Unit).Raises I P := fun m _ v h => hf m v h

theorem raises_remember {f : μ → μ} (hf : ∀ m v, I m v → I (f m) v) :
    (remember f : Program μ σ ε Unit).Raises I P := fun m _ v h => hf m v h

theorem raises_raise {e : ε} (h : P e) : (raise e : Program μ σ ε α).Raises I P := fun _ _ _ _ => h

theorem raises_require {e : ε} (h : P e) (o : Option α) :
    (require e o : Program μ σ ε α).Raises I P := by
  cases o with
  | none => exact raises_raise h
  | some a => exact raises_pure a

theorem raises_publish : (publish : Program μ σ ε Unit).Raises I P :=
  fun _ _ _ h => solo_publish trivial h

theorem Raises.bind {f : α → Program μ σ ε β} (hc : c.Raises I P) (hf : ∀ a, (f a).Raises I P) :
    (c >>= f).Raises I P := fun m b v h =>
  (hc m b v h).bind (fun _ a m b v h => hf a m b v h) fun _ _ _ _ h => h

theorem Raises.ite {p : Prop} [Decidable p] (hc : c.Raises I P) (hd : d.Raises I P) :
    (if p then c else d).Raises I P := by
  split_ifs
  · exact hc
  · exact hd

theorem Raises.mono (hc : c.Raises I P) (h : ∀ e, P e → Q e) : c.Raises I Q := by
  refine fun m b v hI => (hc m b v hI).mono ?_
  rintro g (e | a) b v hend
  · exact h e hend
  · exact hend

/-- A rescue starts from the memory before the body, whatever the view has become. -/
theorem Raises.attempt {rescue : ε → Program μ σ ε α} (hI : ∀ m v w, I m v → I m w)
    (hc : c.Raises I Q) (hr : ∀ e, Q e → (rescue e).Raises I P) : (attempt c rescue).Raises I P := by
  intro m b v h
  rw [meets_attempt]
  refine (hc m b v h).mono ?_
  rintro g (e | p) b' v' hend
  · exact hr e hend m b' v' (hI m v v' h)
  · exact hend

theorem Raises.done {m m' : μ} {b v w : σ} {a : α} (hc : c.Raises I P) (h : I m v)
    (hdone : c m b v = .done w (.ok (a, m'))) : I m' w := by
  have hmeets := hc m b v h
  unfold Meets at hmeets
  rwa [hdone] at hmeets

/-- A run alone ends in nothing but what is allowed. -/
theorem Raises.run {m : μ} {b v : σ} {e : ε} (hc : c.Raises I P) (h : I m v)
    (he : (c.run m b v).1 = .error e) : P e := by
  obtain ⟨_, hend⟩ := run_of_meets trivial (fun _ _ => rfl) (hc m b v h)
  rwa [he] at hend

end FastKit.Transaction.Program
