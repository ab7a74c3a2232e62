import FastKit.Transaction.Pool

/-! # Sessions whose segments are steps

Where what a segment does can be said from what its session remembered as it started, a
session asks nothing of the others. A turn of a pool of such sessions is then one step of
one of them, and what every step keeps holds of every pool a run reaches.
-/

namespace FastKit.Transaction

/-- The contract of a session each segment of which is a step, whatever the others do. -/
def stepping {μ σ : Type} (Step : μ → σ → μ → σ → Prop) : Contract μ μ σ where
  rely := fun _ _ _ => True
  guar := Step
  shows := Eq
  prompt := True

namespace Program
variable {μ σ ε α β : Type} {Step : μ → σ → μ → σ → Prop} {g m : μ} {b v : σ}

theorem steps_publish {post : μ → Except ε (Unit × μ) → σ → σ → Prop} :
    (publish : Program μ σ ε Unit).Meets (stepping Step) post g m b v ↔
      Step g b m v ∧ ∀ t, post m (.ok ((), m)) t t := by
  rw [meets_publish]
  constructor
  · rintro ⟨k, hk, rfl, ht⟩
    exact ⟨hk, fun t => ht t trivial⟩
  · rintro ⟨hk, ht⟩
    exact ⟨m, hk, rfl, fun t _ => ht t⟩

theorem steps_yield {redo : σ → σ} {post : μ → Except ε (Unit × μ) → σ → σ → Prop} :
    (yield redo : Program μ σ ε Unit).Meets (stepping Step) post g m b v ↔
      Step g b m b ∧ ∀ t, post m (.ok ((), m)) t (redo t) := by
  rw [meets_yield]
  constructor
  · rintro ⟨k, hk, rfl, ht⟩
    exact ⟨hk, fun t => ht t trivial⟩
  · rintro ⟨hk, ht⟩
    exact ⟨m, hk, rfl, fun t _ => ht t⟩

/-- A program that ends in the segment it started in meets what holds where it ends. -/
theorem meets_done {γ : Type} {C : Contract γ μ σ} {c : Program μ σ ε α} {g : γ} {m' : μ} {w : σ} {a : α}
    (h : c m b v = .done w (.ok (a, m'))) {post : γ → Except ε (α × μ) → σ → σ → Prop} :
    c.Meets C post g m b v ↔ post g (.ok (a, m')) b w := by
  unfold Meets
  rw [h]
  rfl

/-- How a program ends that leaves nothing unpublished. -/
def anew {α : Type} : μ → Except ε (α × μ) → σ → σ → Prop :=
  ending (fun g p b v => g = p.2 ∧ b = v) (fun _ _ _ _ => True)

/-- Every segment of the program, started with nothing unpublished, is a step. -/
def Steps (Step : μ → σ → μ → σ → Prop) (c : Program μ σ ε α) : Prop :=
  ∀ m s, c.Meets (stepping Step) anew m m s s

theorem meets_bind_anew {c : Program μ σ ε α} {f : α → Program μ σ ε β}
    (hc : c.Meets (stepping Step) anew g m b v) (hf : ∀ a, (f a).Steps Step) :
    (c >>= f).Meets (stepping Step) anew g m b v := by
  refine hc.bind ?_ (fun _ _ _ _ h => h)
  rintro g a m b v ⟨rfl, rfl⟩
  exact hf a _ b

theorem Steps.bind {c : Program μ σ ε α} {f : α → Program μ σ ε β} (hc : c.Steps Step)
    (hf : ∀ a, (f a).Steps Step) : (c >>= f).Steps Step := fun m s => meets_bind_anew (hc m s) hf

theorem steps_pure (a : α) : (pure a : Program μ σ ε α).Steps Step := fun _ _ => ⟨rfl, rfl⟩

theorem steps_query (f : σ → α) : (query f : Program μ σ ε α).Steps Step := fun _ _ => ⟨rfl, rfl⟩

/-- A program whose segments stay within what `Open` says of the store it writes and of the one
it started the segment on. -/
def Within (Step : μ → σ → μ → σ → Prop) (Open : σ → σ → Prop) (c : Program μ σ ε α) : Prop :=
  ∀ g m b v, Open b v → c.Meets (stepping Step)
    (ending (fun _ _ b v => Open b v) fun _ _ _ _ => True) g m b v

variable {Open : σ → σ → Prop}

theorem Within.bind {c : Program μ σ ε α} {f : α → Program μ σ ε β} (hc : c.Within Step Open)
    (hf : ∀ a, (f a).Within Step Open) : (c >>= f).Within Step Open := fun g m b v h =>
  (hc g m b v h).bind (fun _ a _ _ _ hk => hf a _ _ _ _ hk) fun _ _ _ _ _ => trivial

theorem Reads.within {c : Program μ σ ε α} (hc : c.Reads) : c.Within Step Open :=
  fun _ _ _ _ h => hc.meets (fun _ => h) fun _ => trivial

theorem within_ite {p : Prop} [Decidable p] {c d : Program μ σ ε α} (hc : c.Within Step Open)
    (hd : d.Within Step Open) : (if p then c else d).Within Step Open := by
  split_ifs
  · exact hc
  · exact hd

theorem within_execute {f : σ → σ} (hf : ∀ b v, Open b v → Open b (f v)) :
    (execute f : Program μ σ ε Unit).Within Step Open := fun _ _ b v h => hf b v h

theorem within_remember (f : μ → μ) : (remember f : Program μ σ ε Unit).Within Step Open :=
  fun _ _ _ _ h => h

/-- What is open may be published, and a segment starts with nothing open. -/
theorem within_publish (step : ∀ g m b v, Open b v → Step g b m v) (start : ∀ s, Open s s) :
    (publish : Program μ σ ε Unit).Within Step Open := fun g m b v h =>
  steps_publish.mpr ⟨step g m b v h, start⟩

theorem within_yield (step : ∀ g m s, Step g s m s) (start : ∀ s, Open s s) :
    (yield id : Program μ σ ε Unit).Within Step Open := fun g m b _ _ =>
  steps_yield.mpr ⟨step g m b, start⟩

end Program

namespace Pool
variable {μ σ ε α : Type} {Step : μ → σ → μ → σ → Prop}
  {post : ℕ → μ → Except ε α → σ → σ → Prop}

/-- What a session remembers as it waits. -/
def memory (p : Pool μ σ ε α) (i : ℕ) : Option μ := p.sessions[i]?.bind Outcome.memory?

/-- A turn of sessions whose segments are steps: the session that took it made a step, or
ended as `post` says with nothing more published. -/
structure Stepped (Step : μ → σ → μ → σ → Prop) (post : ℕ → μ → Except ε α → σ → σ → Prop)
    (q : Pool μ σ ε α) (i : ℕ) (r : Pool μ σ ε α) : Prop where
  others : ∀ j, j ≠ i → r.sessions[j]? = q.sessions[j]?
  step : ∃ m, q.memory i = some m ∧ ((∃ view result, r.sessions[i]? = some (.done view result) ∧
      r.store = q.store ∧ post i m result q.store view) ∨
    ∃ m', r.memory i = some m' ∧ Step m q.store m' r.store)

/-- Every session of a pool waits to go on with steps of its own. -/
def Stepping (Step : ℕ → μ → σ → μ → σ → Prop) (post : ℕ → μ → Except ε α → σ → σ → Prop)
    (p : Pool μ σ ε α) : Prop :=
  ∀ i o, p.sessions[i]? = some o →
    ∃ m, Waits (stepping (Step i)) (fun _ _ => True) (post i) o m p.store

/-- Sessions whose steps and ends say less. -/
theorem Stepping.mono {Each Each' : ℕ → μ → σ → μ → σ → Prop}
    {post post' : ℕ → μ → Except ε α → σ → σ → Prop} {p : Pool μ σ ε α} (h : Stepping Each post p)
    (steps : ∀ i m s m' t, Each i m s m' t → Each' i m s m' t)
    (ends : ∀ i g r b v, post i g r b v → post' i g r b v) : Stepping Each' post' p := by
  intro i o ho
  obtain ⟨m, hm⟩ := h i o ho
  refine ⟨m, ?_⟩
  cases o with
  | done view result =>
    obtain ⟨base, hsince, hpost⟩ := hm
    exact ⟨base, hsince, ends _ _ _ _ _ hpost⟩
  | pause memory view ready next =>
    obtain ⟨hshows, hnext⟩ := hm
    refine ⟨hshows, fun t hrely hready => (Outcome.Meets.weaken ?_ ?_ ?_ ?_ (hnext t hrely hready)).mono
      (ends i)⟩
    · exact fun _ _ _ h => h
    · exact steps i
    · exact fun _ _ h => h
    · exact fun h => h

/-- Sessions of calls, each of which steps and ends as it says. -/
theorem stepping_calls {ι α : Type} {Each : ι → μ → σ → μ → σ → Prop}
    {post : ι → μ → Except ε (α × μ) → σ → σ → Prop} (program : ι → Program μ σ ε α) (m : ι → μ)
    (s : σ) (calls : List ι)
    (h : ∀ c ∈ calls, ∀ t, (program c).Meets (stepping (Each c)) (post c) (m c) (m c) t t) :
    Stepping (fun i m s m' t => ∃ c ∈ calls[i]?, Each c m s m' t)
      (fun i g r b v => ∃ c ∈ calls[i]?, post c g r b v)
      ⟨s, calls.map (fun c => Program.session (program c) (m c) s)⟩ := by
  intro i o ho
  simp only [List.getElem?_map, Option.map_eq_some_iff] at ho
  obtain ⟨c, hc, rfl⟩ := ho
  refine ⟨m c, rfl, fun t _ _ => (Outcome.Meets.weaken ?_ ?_ ?_ ?_
    (h c (List.mem_of_getElem? hc) t)).mono fun _ _ _ _ hpost => ⟨c, hc, hpost⟩⟩
  · exact fun _ _ _ h => h
  · exact fun _ _ _ _ hstep => ⟨c, hc, hstep⟩
  · exact fun _ _ h => h
  · exact fun h => h

/-- Sessions of calls that all step alike. -/
theorem stepping_sessions {ι α : Type} {post : ι → μ → Except ε (α × μ) → σ → σ → Prop}
    (program : ι → Program μ σ ε α) (m : ι → μ) (s : σ) (calls : List ι)
    (h : ∀ c ∈ calls, ∀ t, (program c).Meets (stepping Step) (post c) (m c) (m c) t t) :
    Stepping (fun _ => Step) (fun i g r b v => ∀ c ∈ calls[i]?, post c g r b v)
      ⟨s, calls.map (fun c => Program.session (program c) (m c) s)⟩ :=
  (stepping_calls program m s calls h).mono (fun _ _ _ _ _ ⟨_, _, hstep⟩ => hstep)
    fun _ _ _ _ _ ⟨_, hc, hpost⟩ _ hc' => Option.mem_unique hc hc' ▸ hpost

/-- A session of a call that took no turn remembers what the call starts with. -/
theorem memory_sessions {ι α : Type} {program : ι → Program μ σ ε α} {m : ι → μ} {s : σ}
    {calls : List ι} {i : ℕ} {k : μ} (h : (⟨s, calls.map (fun c => Program.session (program c) (m c) s)⟩ :
      Pool μ σ ε (α × μ)).memory i = some k) : ∃ c ∈ calls[i]?, k = m c := by
  obtain ⟨o, ho, hm⟩ := Option.bind_eq_some_iff.mp h
  simp only [List.getElem?_map, Option.map_eq_some_iff] at ho
  obtain ⟨c, hc, rfl⟩ := ho
  exact ⟨c, hc, (Option.some.inj hm).symm⟩

variable {ok : Pool μ σ ε α → ℕ → Pool μ σ ε α → Prop} {p q r : Pool μ σ ε α}
  {trace : List (Turn σ)} {i j : ℕ}

theorem Stepped.memory_others (h : Stepped Step post q i r) (hj : j ≠ i) :
    r.memory j = q.memory j := by
  rw [memory, memory, h.others j hj]

/-- Who waits after a turn that ended its session waited before it. -/
theorem Stepped.memory_ended (h : Stepped Step post q i r) {view : σ} {result : Except ε α}
    (hi : r.sessions[i]? = some (.done view result)) {m : μ} (hm : r.memory j = some m) :
    q.memory j = some m := by
  by_cases hj : j = i
  · rw [hj, memory, hi] at hm
    cases hm
  · exact (h.memory_others hj).symm.trans hm

/-- A turn of a session of which more is known as it takes it. -/
theorem Stepped.given {K : μ → σ → Prop} (h : Stepped Step post q i r)
    (hk : ∀ m, q.memory i = some m → K m q.store) :
    Stepped (fun m s m' t => K m s ∧ Step m s m' t) post q i r := by
  obtain ⟨m, hm, hend⟩ := h.step
  exact ⟨h.others, m, hm, hend.imp_right fun ⟨m', hm', step⟩ => ⟨m', hm', hk m hm, step⟩⟩

variable {Each : ℕ → μ → σ → μ → σ → Prop}

/-- Every turn of a run of such sessions is a step of the one that took it. -/
theorem Run.stepped (run : Run ok p trace q) (start : Stepping Each post p)
    (taken : q.turn i = some r) : Stepped (Each i) post q i r := by
  have hC : Compatible ok (fun i => stepping (Each i)) (fun _ _ => True)
      (fun (_ : ℕ → μ) (_ : σ) => True) := by
    refine ⟨?_, ?_, ?_, ?_, ?_, ?_, ?_⟩ <;> intros <;> trivial
  obtain ⟨memory, view, ready, next, hget, -, hr⟩ := turn_eq_some taken
  -- every session starts at the stage it shows
  have hp : ∀ j : ℕ, ∃ m : μ, ∀ o : Outcome μ σ ε α, p.sessions[j]? = some o →
      Waits (stepping (Each j)) (fun _ _ => True) (post j) o m p.store := by
    intro j
    cases hj : p.sessions[j]? with
    | none => exact ⟨memory, by simp⟩
    | some o =>
      obtain ⟨m, hm⟩ := start j o hj
      exact ⟨m, fun o' ho => Option.some.inj ho ▸ hm⟩
  choose g hg using hp
  obtain ⟨h, m, o, -, hm, rfl, ho, hend⟩ := run.taken hC trivial (g := g) hg taken
  subst hr
  refine ⟨fun j hj => List.getElem?_set_ne (Ne.symm hj), h i, hm, ?_⟩
  rcases hend with ⟨view', result, rfl, hsame, hpost⟩ | ⟨m', g', hm', hguar, rfl⟩
  · exact .inl ⟨view', result, ho, hsame, hpost⟩
  · exact .inr ⟨g', by rw [Pool.memory, ho]; exact hm', hguar⟩

/-- What every step of a turn that satisfies `ok` keeps holds of every pool a run reaches. -/
theorem Run.invariant (run : Run ok p trace q) (start : Stepping Each post p)
    {I : Pool μ σ ε α → Prop} (hI : I p)
    (keep : ∀ q i r, ok q i r → Stepped (Each i) post q i r → I q → I r) : I q := by
  induction run with
  | start => exact hI
  | turn i past taken holds ih => exact keep _ _ _ holds (past.stepped start taken) ih

end Pool
end FastKit.Transaction
