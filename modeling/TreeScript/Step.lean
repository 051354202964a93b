/-!
# Computations on a state

A `Step σ ε α` is a computation that works on a state `σ` and ends in one of five ways: it returns a
value, it fails, it breaks off without tidying up, it waits for another thread, or it was given too
few steps to end at all. Only the first two are seen by the computation around it; the others go
through to the outside, and what was to come after them does not happen.

* `Step.thenAlways` tidies up after a computation that returned or failed. Its failure comes first.
* `Step.whenCrashed` is what a guard does when a computation breaks off.
* `Step.loop` repeats a round until the round gives a result.
* `Step.zoom` works on a part of the state.
-/

namespace TreeScript

/-- How a computation ends. -/
inductive Outcome (σ ε α : Type) where
  /-- It returned a value. -/
  | ok (value : α) (state : σ)
  /-- It failed. -/
  | error (failure : ε) (state : σ)
  /-- It broke off without tidying up. -/
  | crashed (state : σ)
  /-- It waits for something that another thread has to do. -/
  | blocked (state : σ)
  /-- It was given too few steps. -/
  | exhausted (state : σ)

namespace Outcome

variable {σ ε α β : Type}

/-- Goes on after a value that was returned. -/
def andThen (o : Outcome σ ε α) (f : α → σ → Outcome σ ε β) : Outcome σ ε β :=
  match o with
  | ok value state => f value state
  | error failure state => error failure state
  | crashed state => crashed state
  | blocked state => blocked state
  | exhausted state => exhausted state

/-- The state that a computation got to. -/
def reached : Outcome σ ε α → σ
  | ok _ state | error _ state | crashed state | blocked state | exhausted state => state

/-- The state in which a computation ended. -/
def state? : Outcome σ ε α → Option σ
  | ok _ state | error _ state | crashed state | blocked state => some state
  | exhausted _ => none

end Outcome

/-- A computation on a state. -/
def Step (σ ε α : Type) : Type := σ → Outcome σ ε α

namespace Step

variable {σ τ ε ε' α β : Type}

/-- Runs a computation. -/
def run (x : Step σ ε α) (s : σ) : Outcome σ ε α := x s

instance : Monad (Step σ ε) where
  pure a := fun s => .ok a s
  bind x f := fun s => (x s).andThen fun a s => f a s

theorem run_pure (a : α) (s : σ) : (pure a : Step σ ε α) s = .ok a s := rfl

theorem run_bind (x : Step σ ε α) (f : α → Step σ ε β) (s : σ) :
    (x >>= f) s = (x s).andThen fun a s => f a s := rfl

instance : LawfulMonad (Step σ ε) :=
  LawfulMonad.mk' (Step σ ε)
    (fun x => by
      funext s
      change (x s).andThen (fun a s => Outcome.ok (id a) s) = x s
      cases x s <;> rfl)
    (fun _ _ => rfl)
    (fun x f g => by
      funext s
      change ((x s).andThen fun a s => f a s).andThen (fun b s => g b s) =
        (x s).andThen fun a s => (f a s).andThen fun b s => g b s
      cases x s <;> rfl)

/-! ## The state -/

/-- The state. -/
def get : Step σ ε σ := fun s => .ok s s

/-- A part of the state. -/
def gets (f : σ → α) : Step σ ε α := fun s => .ok (f s) s

/-- Changes the state. -/
def modify (f : σ → σ) : Step σ ε Unit := fun s => .ok () (f s)

/-- Works on a part of the state. -/
def zoom (part : τ → σ) (replace : τ → σ → τ) (x : Step σ ε α) : Step τ ε α := fun t =>
  match x (part t) with
  | .ok value s => .ok value (replace t s)
  | .error failure s => .error failure (replace t s)
  | .crashed s => .crashed (replace t s)
  | .blocked s => .blocked (replace t s)
  | .exhausted s => .exhausted (replace t s)

/-- Changes a part of the state by a function that may fail, and then changes nothing. -/
def update (part : τ → σ) (replace : τ → σ → τ) (f : σ → Except ε (α × σ)) : Step τ ε α := fun t =>
  match f (part t) with
  | .ok (value, s) => .ok value (replace t s)
  | .error failure => .error failure t

/-! ## Failures -/

/-- Fails. -/
def fail (failure : ε) : Step σ ε α := fun s => .error failure s

/-- Breaks off. -/
def crash : Step σ ε α := fun s => .crashed s

/-- Waits for another thread. -/
def block : Step σ ε α := fun s => .blocked s

/-- Does not end. -/
def exhaust : Step σ ε α := fun s => .exhausted s

instance : Inhabited (Step σ ε α) := ⟨exhaust⟩

/-- Returns a value or fails. -/
def ofExcept : Except ε α → Step σ ε α
  | .ok value => pure value
  | .error failure => fail failure

/-- Returns a value, and does not end if there is none. -/
def ofOption : Option α → Step σ ε α
  | some value => pure value
  | none => exhaust

/-- Fails in a way that depends on the state, and does not end if there is none. -/
def failWith (f : σ → Option ε) : Step σ ε α := fun s =>
  match f s with
  | some failure => .error failure s
  | none => .exhausted s

/-- Changes a failure, with an eye on the state it left. It does not end if there is nothing to change
the failure to. -/
def mapErrorWith (f : σ → ε → Option ε') (x : Step σ ε α) : Step σ ε' α := fun s =>
  match x s with
  | .ok value s => .ok value s
  | .error failure s => failWith (fun s => f s failure) s
  | .crashed s => .crashed s
  | .blocked s => .blocked s
  | .exhausted s => .exhausted s

/-- Changes a failure. -/
def mapError (f : ε → ε') (x : Step σ ε α) : Step σ ε' α := x.mapErrorWith fun _ e => some (f e)

/-- Takes a failure for a value. -/
def attempt (x : Step σ ε α) : Step σ ε' (Except ε α) := fun s =>
  match x s with
  | .ok value s => .ok (.ok value) s
  | .error failure s => .ok (.error failure) s
  | .crashed s => .crashed s
  | .blocked s => .blocked s
  | .exhausted s => .exhausted s

/-- Tidies up after a computation that returned or failed. -/
def thenAlways (x : Step σ ε α) (tidy : Step σ ε β) : Step σ ε α := do
  let outcome ← x.attempt
  let tidied ← tidy.attempt
  let value ← ofExcept outcome
  let _ ← ofExcept tidied
  return value

/-- Changes the state in which a computation breaks off. -/
def whenCrashed (x : Step σ ε α) (tidy : σ → σ) : Step σ ε α := fun s =>
  match x s with
  | .ok value s => .ok value s
  | .error failure s => .error failure s
  | .crashed s => .crashed (tidy s)
  | .blocked s => .blocked s
  | .exhausted s => .exhausted s

/-! ## Repetition -/

/-- Repeats a round until it gives a result, `limit` times at most. -/
def loop (limit : Nat) (round : Step σ ε (Option α)) : Step σ ε α :=
  match limit with
  | 0 => exhaust
  | limit + 1 => fun s =>
    match round s with
    | .ok (some value) s => .ok value s
    | .ok none s => loop limit round s
    | .error failure s => .error failure s
    | .crashed s => .crashed s
    | .blocked s => .blocked s
    | .exhausted s => .exhausted s

/-- Runs a round for each item until one gives a result. -/
def firstOf (round : β → Step σ ε (Option α)) : List β → Step σ ε (Option α)
  | [] => pure none
  | b :: rest => fun s =>
    match round b s with
    | .ok (some value) s => .ok (some value) s
    | .ok none s => firstOf round rest s
    | .error failure s => .error failure s
    | .crashed s => .crashed s
    | .blocked s => .blocked s
    | .exhausted s => .exhausted s

/-- Repeated rounds, one round at a time. -/
theorem loop_succ (limit : Nat) (round : Step σ ε (Option α)) :
    loop (limit + 1) round = (do
      match ← round with
      | some value => return value
      | none => loop limit round) := by
  funext s
  simp only [loop, run_bind]
  rcases round s with ⟨_ | _, _⟩ | _ | _ | _ | _ <;> rfl

/-- Rounds for the items of a list, one item at a time. -/
theorem firstOf_cons (round : β → Step σ ε (Option α)) (b : β) (rest : List β) :
    firstOf round (b :: rest) = (do
      match ← round b with
      | some value => return some value
      | none => firstOf round rest) := by
  funext s
  simp only [firstOf, run_bind]
  rcases round b s with ⟨_ | _, _⟩ | _ | _ | _ | _ <;> rfl

end Step

end TreeScript
