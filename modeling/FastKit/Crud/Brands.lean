import FastKit.Crud.Writes

/-! # The brands of the panel stay apart

However the calls of the operators of the brands take turns, no key comes to lead from one brand to
another, what belongs to a brand none of them is of stays as it is, and so does what its own
operators are answered.
-/

namespace FastKit.Crud
open Relational Transaction Transaction.Program

variable {π δ κ : Type} {V : Services π δ} {operator : Operator} {m : Model} {s t : Store δ} {r p : Row δ}
  {c : ℕ} {x : Option ℕ} {calls : List (Operator × Call π)} {trace : List (Turn (Store δ))}
  {q : Sessions δ}

/-- An operator of a brand signs in by an account of the brand. -/
def Operates (s : Store δ) (operator : Operator) : Prop :=
  ∃ c, operator.tenantId = some c ∧ ∃ r ∈ s .user, r.id = operator.id ∧ r.refs .tenantId = some c

/-- What a run of calls amounts to for the brands it has no operator of, and for what belongs to none. -/
def Amounts (calls : List (Operator × Call π)) (s t : Store δ) : Prop :=
  Fenced brands s → Fenced brands t ∧ Lasting brands s t ∧
    ∀ x, (∀ call ∈ calls, call.1.tenantId ≠ x) → Untouched brands x s t

theorem Amounts.refl (s : Store δ) : Amounts calls s s := fun hs => ⟨hs, .refl s, fun _ _ => .refl s⟩

theorem Amounts.trans {u : Store δ} (h : Amounts calls s t) (h' : Amounts calls t u) :
    Amounts calls s u := by
  intro hs
  obtain ⟨ht, hst, hrows⟩ := h hs
  obtain ⟨hu, htu, hrows'⟩ := h' ht
  exact ⟨hu, hst.trans htu, fun x hx => (hrows x hx).trans (hrows' x hx)⟩

/-- The contract of a session, and of one that there is none of. -/
def contractOf (calls : List (Operator × Call π)) (i : ℕ) : Contract Unit Unit (Store δ) :=
  match calls[i]?.bind (fun call => call.1.tenantId) with
  | some c => confined c
  | none => { confined 0 with guar := fun _ _ _ _ => False }

theorem contractOf_eq {i : ℕ} {call : Operator × Call π} (hcall : calls[i]? = some call)
    (hc : call.1.tenantId = some c) : contractOf (δ := δ) calls i = confined c := by
  rw [contractOf, hcall, Option.bind_some, hc]

theorem contractOf_rely {i : ℕ} {g : Unit} : (contractOf calls i).rely g s t =
    (Fenced brands s → Fenced brands t ∧ Lasting brands s t) := by
  unfold contractOf
  split <;> rfl

/-- What a session promises, it promises of its own brand. -/
theorem contractOf_guar {i : ℕ} {g g' : Unit} (h : (contractOf calls i).guar g s g' t)
    (hs : Fenced brands s) : ∃ call ∈ calls, ∃ c, call.1.tenantId = some c ∧ Stays c s t := by
  cases hbrand : calls[i]?.bind (fun call => call.1.tenantId) with
  | none =>
    rw [contractOf, hbrand] at h
    cases h
  | some c =>
    obtain ⟨call, hcall, hc⟩ := Option.bind_eq_some_iff.mp hbrand
    rw [contractOf_eq hcall hc] at h
    exact ⟨call, List.mem_of_getElem? hcall, c, hc, h hs⟩

theorem waits_contractOf (hs : Fenced brands s) (hoperates : ∀ call ∈ calls, Operates s call.1) :
    ∀ i o, (sessions V calls s).sessions[i]? = some o →
      Pool.Waits (contractOf calls i) (Amounts calls) (fun _ _ _ _ => True) o ()
        (sessions V calls s).store := by
  intro i o ho
  simp only [sessions, List.getElem?_map, Option.map_eq_some_iff] at ho
  obtain ⟨call, hcall, rfl⟩ := ho
  obtain ⟨c, hc, r, hr, hid, htenant⟩ := hoperates call (List.mem_of_getElem? hcall)
  rw [contractOf_eq hcall hc]
  refine ⟨trivial, fun t hst _ => ?_⟩
  obtain ⟨ht, hlast⟩ := hst hs
  have haccount : Fits c false s .user call.1.id := by
    have howner : owner brands s .user r = some c := (owner_own rfl).trans htenant
    exact hid ▸ fits_of_mem hr (.inl howner)
  exact (serve_meets call.2 hc ht (haccount.lasting hlast)).mono fun _ _ _ _ _ => trivial

theorem compatible_contractOf (ok : Sessions δ → ℕ → Sessions δ → Prop) :
    Pool.Compatible ok (contractOf calls) (Amounts calls)
      (fun (_ : ℕ → Unit) (s : Store δ) => Fenced brands s) where
  refl _ _ s := by
    rw [contractOf_rely]
    exact fun hs => ⟨hs, .refl s⟩
  trans _ _ s t u h h' := by
    rw [contractOf_rely] at *
    exact fun hs => ⟨(h' (h hs).1).1, (h hs).2.trans (h' (h hs).1).2⟩
  since_refl := Amounts.refl
  since_trans _ _ _ := Amounts.trans
  since_guar := by
    intro q r i g' h _ hs _ hguar _
    obtain ⟨call, hcall, c, hc, hstays⟩ := contractOf_guar hguar hs
    exact ⟨hstays.fenced, hstays.lasting,
      fun x hx => hstays.untouched x fun heq => hx call hcall (hc.trans heq.symm)⟩
  kept := by
    intro q r i g' h _ hs _ hguar
    obtain ⟨_, _, _, _, hstays⟩ := contractOf_guar hguar hs
    exact hstays.fenced
  others := by
    intro q r i j g' h _ hs _ _ _ hguar
    obtain ⟨_, _, _, _, hstays⟩ := contractOf_guar hguar hs
    rw [contractOf_rely]
    exact fun _ => ⟨hstays.fenced, hstays.lasting⟩

theorem run_amounts {ok : Sessions δ → ℕ → Sessions δ → Prop} (hs : Fenced brands s)
    (hoperates : ∀ call ∈ calls, Operates s call.1) (run : Pool.Run ok (sessions V calls s) trace q) :
    Amounts calls s q.store :=
  Pool.Run.since (g := fun _ => ()) (compatible_contractOf ok) hs (waits_contractOf hs hoperates) run

/-- No call of an operator of a brand reaches beyond the brand: whatever calls the operators of the
brands make and however their statements take turns, where no key led from one brand to another none
does, and every row that belongs to a brand none of them is of, or to none, is as it was, with no such
row come or gone. -/
theorem brands_apart {ok : Sessions δ → ℕ → Sessions δ → Prop} (hs : Fenced brands s)
    (hoperates : ∀ call ∈ calls, Operates s call.1) (run : Pool.Run ok (sessions V calls s) trace q) :
    Fenced brands q.store ∧ ∀ x, (∀ call ∈ calls, call.1.tenantId ≠ x) → ∀ m r,
      r ∈ q.store m ∧ owner brands q.store m r = x ↔ r ∈ s m ∧ owner brands s m r = x := by
  obtain ⟨hq, -, hrows⟩ := run_amounts hs hoperates run hs
  exact ⟨hq, fun x hx m r => hrows x hx m r⟩

namespace Mall

/-- Rows that point where they say. -/
def table (rows : List (List (Column × ℕ))) : Table (Row Unit) :=
  rows.foldl (fun t refs => ((t.insert (fun id => ⟨id, fun column => refs.lookup column, ()⟩)).map
    Prod.snd).getD t) .empty

/-- Two brands with an operator each, and a currency of the second. -/
def store : Store Unit
  | .tenant => table [[], []]
  | .user => table [[(.tenantId, 0)], [(.tenantId, 1)]]
  | .currency => table [[(.tenantId, 1)]]
  | _ => .empty

def services : Services Unit Unit :=
  ⟨fun _ _ => (), fun _ _ _ _ => none, fun _ _ _ _ => (), (), fun _ _ _ => false, fun _ => 0,
    fun _ _ => (), (), true⟩

theorem fenced : Fenced brands store := by decide +kernel

/-- The operator of the first brand adds a currency, takes it back, and asks for the one of the other
brand. -/
def asks : List (Operator × Call Unit) :=
  [(⟨0, some 0, true⟩, .create .currency ⟨fun _ => none, ()⟩), (⟨0, some 0, true⟩, .delete .currency 0),
    (⟨0, some 0, true⟩, .delete .currency 1)]

theorem operates : ∀ call ∈ asks, Operates store call.1 := by
  intro call hcall
  have hsame : call.1 = ⟨0, some 0, true⟩ := by
    simp only [asks, List.mem_cons, List.not_mem_nil, or_false] at hcall
    rcases hcall with rfl | rfl | rfl <;> rfl
  rw [hsame]
  have hthere : ∃ r ∈ store .user, r.id = 0 ∧ r.refs .tenantId = some 0 := by decide +kernel
  exact ⟨0, rfl, hthere⟩

end Mall

/-- The currency of the second brand is there after the first one added one of its own. -/
theorem brands_apart_mall : ∃ trace q, Pool.Run (fun _ _ _ => True)
    (sessions Mall.services Mall.asks Mall.store) trace q ∧ (∃ r ∈ q.store .currency, r.refs .tenantId = some 0) ∧ Fenced brands q.store ∧
    ∃ r ∈ q.store .currency, owner brands q.store .currency r = some 1 := by
  obtain ⟨trace, q, run, hq⟩ := Pool.exists_run (fun _ _ _ => True)
    (sessions Mall.services Mall.asks Mall.store) [0, 1, 0, 0, 0, 0]
    (fun q => ∃ r ∈ q.store .currency, r.refs .tenantId = some 0) (by decide +kernel)
  obtain ⟨hfenced, hrows⟩ := brands_apart Mall.fenced Mall.operates run
  have hthere : ∃ r ∈ Mall.store .currency, owner brands Mall.store .currency r = some 1 := by
    decide +kernel
  obtain ⟨r, hr, howner⟩ := hthere
  have hkept := (hrows (some 1) (by decide) .currency r).mpr ⟨hr, howner⟩
  exact ⟨trace, q, run, hq, hfenced, r, hkept.1, hkept.2⟩

section Answers
variable {L : Listing δ κ} {a b d : Row δ} {path : List Column}

/-- The rows a listing is filtered by are there, and belong to the brand or to none. -/
def Listing.Within (L : Listing δ κ) (c : ℕ) (m : Model) (s : Store δ) : Prop :=
  ∀ column target value, (column, Elsewhere.reaches target) ∈ m.filtersElsewhere →
    L.elsewhere column = some value →
    ∃ p ∈ s target, p.id = value ∧ (owner brands s target p = some c ∨ owner brands s target p = none)

variable [LinearOrder κ]

theorem settled_total (L : Listing δ κ) (a b : Row δ) : L.settled a b ∨ L.settled b a := by
  unfold Listing.settled
  rcases lt_trichotomy (L.column a) (L.column b) with h | h | h
  · exact .inl (.inl h)
  · exact (Nat.le_total a.id b.id).imp (fun hid => .inr ⟨h, hid⟩) fun hid => .inr ⟨h.symm, hid⟩
  · exact .inr (.inl h)

theorem settled_trans (h : L.settled a b) (h' : L.settled b d) : L.settled a d := by
  unfold Listing.settled at *
  rcases h with h | ⟨h, hid⟩ <;> rcases h' with h' | ⟨h', hid'⟩
  · exact .inl (h.trans h')
  · exact .inl (h' ▸ h)
  · exact .inl (h ▸ h')
  · exact .inr ⟨h.trans h', hid.trans hid'⟩

instance (L : Listing δ κ) : Std.Total L.ahead where
  total a b := by
    unfold Listing.ahead
    rcases Nat.lt_trichotomy (L.rank a) (L.rank b) with h | h | h
    · exact .inr (.inl h)
    · have hsettled := settled_total L a b
      cases L.descending with
      | true => exact hsettled.symm.imp (fun hs => .inr ⟨h, hs⟩) fun hs => .inr ⟨h.symm, hs⟩
      | false => exact hsettled.imp (fun hs => .inr ⟨h, hs⟩) fun hs => .inr ⟨h.symm, hs⟩
    · exact .inl (.inl h)

instance (L : Listing δ κ) : IsTrans (Row δ) L.ahead where
  trans a b d h h' := by
    unfold Listing.ahead at *
    rcases h with h | ⟨h, hs⟩ <;> rcases h' with h' | ⟨h', hs'⟩
    · exact .inl (h'.trans h)
    · exact .inl (h' ▸ h)
    · exact .inl (h ▸ h')
    · refine .inr ⟨h.trans h', ?_⟩
      split_ifs at hs hs' ⊢
      · exact settled_trans hs' hs
      · exact settled_trans hs hs'

end Answers

namespace Mall

/-- A mall whose brands share a product, and the second of which has an entitlement. -/
def arcade : Store Unit
  | .product => table [[]]
  | .entitlement => table [[(.tenantId, 0)], [(.tenantId, 1)]]
  | m => store m

def reaching (entitlement : ℕ) : Listing Unit ℕ where
  wanted := fun _ => true
  elsewhere := fun column => if column = .entitlementId then some entitlement else none
  rank := fun _ => 0
  column := Record.id
  descending := false
  limit := 10
  offset := 0

/-- The operator of the second brand deletes the entitlement of its own. -/
def withdraws : List (Operator × Call Unit) := [(⟨1, some 1, true⟩, .delete .entitlement 1)]

theorem within : (reaching 0).Within 0 .product arcade := by
  intro column target value hf hvalue
  obtain ⟨rfl, htarget⟩ := Prod.mk.inj (List.mem_singleton.mp hf)
  obtain rfl := Elsewhere.reaches.inj htarget
  obtain rfl : 0 = value := Option.some.inj hvalue
  have hthere : ∃ p ∈ arcade .entitlement, p.id = 0 ∧ owner brands arcade .entitlement p = some 0 := by
    decide +kernel
  obtain ⟨p, hp, hid, howner⟩ := hthere
  exact ⟨p, hp, hid, .inl howner⟩

end Mall

/-- A listing that is filtered by a row of another brand lists what the brands share only as long as
that brand keeps the row. -/
theorem answers_follow_stranger : ∃ trace q, Pool.Run (fun _ _ _ => True)
    (sessions Mall.services Mall.withdraws Mall.arcade) trace q ∧
    (paginate ⟨0, some 0, true⟩ .product (Mall.reaching 1) Mall.arcade).1 = 1 ∧
    (paginate ⟨0, some 0, true⟩ .product (Mall.reaching 1) q.store).1 = 0 := by
  obtain ⟨trace, q, run, hq⟩ := Pool.exists_run (fun _ _ _ => True)
    (sessions Mall.services Mall.withdraws Mall.arcade) [0, 0, 0, 0]
    (fun q => (paginate ⟨0, some 0, true⟩ .product (Mall.reaching 1) q.store).1 = 0) (by decide +kernel)
  exact ⟨trace, q, run, by decide +kernel, hq⟩

end FastKit.Crud
