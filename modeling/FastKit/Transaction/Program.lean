import Mathlib.Tactic.Common

/-! # Transactional programs over a shared store

A session runs segment after segment. A segment reads and writes its own view of
the store; what it wrote is published when the segment ends, and other sessions
run only between segments. An error leaves the view to whoever catches it, and a
session that ends publishes nothing it did not commit.
-/

namespace FastKit.Transaction

/-- What is left of a session: either it ended, or a segment ended with `view`
published and `next` runs, remembering `memory`, from whatever store it finds once
`ready` holds of it. -/
inductive Outcome (μ σ ε α : Type) where
  | done (view : σ) (result : Except ε α)
  | pause (memory : μ) (view : σ) (ready : σ → Bool) (next : σ → Outcome μ σ ε α)

namespace Outcome
variable {μ σ ε α β : Type}

/-- Goes on with `f` in the segment where the first part ended. -/
def andThen (f : α → σ → σ → Outcome μ σ ε β) : Outcome μ σ ε α → σ → Outcome μ σ ε β
  | .done view (.ok a), base => f a base view
  | .done view (.error e), _ => .done view (.error e)
  | .pause memory view ready next, _ => .pause memory view ready (fun t => (next t).andThen f t)

theorem andThen_andThen {γ : Type} {f : α → σ → σ → Outcome μ σ ε β}
    {k : β → σ → σ → Outcome μ σ ε γ} (o : Outcome μ σ ε α) (b : σ) :
    (o.andThen f b).andThen k b = o.andThen (fun a b v => (f a b v).andThen k b) b := by
  induction o generalizing b with
  | done view result => cases result <;> rfl
  | pause memory view ready next ih => simp only [andThen, ih]

theorem andThen_done {β : Type} (o : Outcome μ σ ε (α × β)) (b : σ) :
    o.andThen (fun p _ v => .done v (.ok (p.1, p.2))) b = o := by
  induction o generalizing b with
  | done view result => cases result <;> rfl
  | pause memory view ready next ih => simp only [andThen, ih]

/-- Goes on with `h` where an error reached the end of the program. -/
def handle (h : ε → σ → σ → Outcome μ σ ε α) : Outcome μ σ ε α → σ → Outcome μ σ ε α
  | .done view (.ok a), _ => .done view (.ok a)
  | .done view (.error e), base => h e base view
  | .pause memory view ready next, _ => .pause memory view ready (fun t => (next t).handle h t)

/-- The store a segment started on `base` leaves behind. -/
def published : Outcome μ σ ε α → σ → σ
  | .done _ _, base => base
  | .pause _ view _ _, _ => view

/-- The whole session with nobody else running: its result, the store it started its
last segment on, and the view that segment ended with. -/
def run : Outcome μ σ ε α → σ → Except ε α × σ × σ
  | .done view result, base => (result, base, view)
  | .pause _ view _ next, _ => (next view).run view

/-- What a session remembers while it waits. -/
def memory? : Outcome μ σ ε α → Option μ
  | .done _ _ => none
  | .pause memory _ _ _ => some memory

def result? : Outcome μ σ ε α → Option (Except ε α)
  | .done _ result => some result
  | .pause _ _ _ _ => none

end Outcome

/-- A program of a session that remembers `μ`, over a store `σ`: it is given its
memory, the store its segment started on and the view made of it since. -/
def Program (μ σ ε α : Type) : Type := μ → σ → σ → Outcome μ σ ε (α × μ)

namespace Program
variable {μ σ ε α β : Type}

protected def pure (a : α) : Program μ σ ε α := fun m _ view => .done view (.ok (a, m))

protected def bind (c : Program μ σ ε α) (f : α → Program μ σ ε β) : Program μ σ ε β :=
  fun m base view => (c m base view).andThen (fun p => f p.1 p.2) base

instance : Monad (Program μ σ ε) where
  pure := Program.pure
  bind := Program.bind

def query (f : σ → α) : Program μ σ ε α := fun m _ view => .done view (.ok (f view, m))

theorem bind_assoc {γ : Type} (c : Program μ σ ε α) (f : α → Program μ σ ε β)
    (k : β → Program μ σ ε γ) : c >>= f >>= k = c >>= fun a => f a >>= k := by
  funext m base view
  exact Outcome.andThen_andThen (c m base view) base

theorem bind_pure (c : Program μ σ ε α) : c >>= pure = c := by
  funext m base view
  exact Outcome.andThen_done (c m base view) base

theorem query_bind {f : σ → α} {k : α → Program μ σ ε β} {m : μ} {base view : σ} :
    (query f >>= k) m base view = k (f view) m base view := rfl

def execute (f : σ → σ) : Program μ σ ε Unit := fun m _ view => .done (f view) (.ok ((), m))

def remembered (f : μ → α) : Program μ σ ε α := fun m _ view => .done view (.ok (f m, m))

theorem remembered_bind {f : μ → α} {k : α → Program μ σ ε β} {m : μ} {base view : σ} :
    (remembered f >>= k) m base view = k (f m) m base view := rfl

def remember (f : μ → μ) : Program μ σ ε Unit := fun m _ view => .done view (.ok ((), f m))

def raise (e : ε) : Program μ σ ε α := fun _ _ view => .done view (.error e)

/-- Ends the segment and publishes its view. -/
def publish : Program μ σ ε Unit :=
  fun m _ view => .pause m view (fun _ => true) (fun t => .done t (.ok ((), m)))

/-- Waits, with the segment published, until `ready` holds; goes straight on where it
holds already. -/
def await (ready : σ → Bool) : Program μ σ ε Unit := fun m _ view =>
  if ready view then .done view (.ok ((), m))
  else .pause m view ready (fun t => .done t (.ok ((), m)))

/-- Lets others run with nothing published; `redo` makes the session's own writes again
on the store it finds. -/
def yield (redo : σ → σ) : Program μ σ ε Unit :=
  fun m base _ => .pause m base (fun _ => true) (fun t => .done (redo t) (.ok ((), m)))

/-- Forgets what the segment wrote. -/
def revert : Program μ σ ε Unit := fun m base _ => .done base (.ok ((), m))

theorem bind_ok {c : Program μ σ ε α} {f : α → Program μ σ ε β} {m m' : μ} {base view w : σ} {a : α}
    (h : c m base view = .done w (.ok (a, m'))) : (c >>= f) m base view = f a m' base w := by
  change (c m base view).andThen _ base = _
  rw [h]
  rfl

theorem bind_error {c : Program μ σ ε α} {f : α → Program μ σ ε β} {m : μ} {base view w : σ} {e : ε}
    (h : c m base view = .done w (.error e)) : (c >>= f) m base view = .done w (.error e) := by
  change (c m base view).andThen _ base = _
  rw [h]
  rfl

theorem bind_congr {c d : Program μ σ ε α} {f : α → Program μ σ ε β} {m m' : μ} {base view w : σ}
    (h : c m base view = d m' base w) : (c >>= f) m base view = (d >>= f) m' base w := by
  change (c m base view).andThen _ base = _
  rw [h]
  rfl

/-- Runs `body`, and `rescue` with the memory the body started from where it fails. -/
def attempt (body : Program μ σ ε α) (rescue : ε → Program μ σ ε α) : Program μ σ ε α :=
  fun m base view => (body m base view).handle (fun e => rescue e m) base

def require (e : ε) : Option α → Program μ σ ε α
  | some a => Program.pure a
  | none => raise e

/-- A session before its first segment. -/
def session (c : Program μ σ ε α) (m : μ) (s : σ) : Outcome μ σ ε (α × μ) :=
  .pause m s (fun _ => true) (fun t => c m t t)

/-- The program from the store `s` with nobody else running. -/
def run (c : Program μ σ ε α) (m : μ) (base view : σ) : Except ε (α × μ) × σ × σ :=
  (c m base view).run base

end Program
end FastKit.Transaction
