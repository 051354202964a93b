import TreeScript.Step

/-!
# Computations that do the same

Two computations are alike if, from related states, they end in the same way: with the same value or
the same error, and again in related states. `Step.Alike R x x' Q E` says this for `x` and `x'`,
where `R` relates the states before, `Q a` those in which both return `a`, and `E` those of all
other ends. With one computation in both places and relations that hold of equal states only, it
says what the computation keeps.

There is one rule for each way to build a computation: `Alike.bind`, `Alike.thenAlways`,
`Alike.loop` and so on. `Alike.mono` fits the relations together.
-/

namespace TreeScript

variable {σ τ ε ε' α β : Type}

theorem exists_ok_of_bind {r : Except ε α} {k : α → Except ε β} {b : β} (h : (r >>= k) = .ok b) :
    ∃ a, r = .ok a ∧ k a = .ok b := by
  cases r with
  | error e => cases h
  | ok a => exact ⟨a, rfl, h⟩

namespace Outcome

/-- Two computations have ended in the same way, in related states. -/
inductive Alike (Q : α → σ → σ → Prop) (E : σ → σ → Prop) :
    Outcome σ ε α → Outcome σ ε α → Prop
  | ok {a : α} {s s' : σ} (h : Q a s s') : Alike Q E (.ok a s) (.ok a s')
  | error {e : ε} {s s' : σ} (h : E s s') : Alike Q E (.error e s) (.error e s')
  | crashed {s s' : σ} (h : E s s') : Alike Q E (.crashed s) (.crashed s')
  | blocked {s s' : σ} (h : E s s') : Alike Q E (.blocked s) (.blocked s')
  | exhausted {s s' : σ} (h : E s s') : Alike Q E (.exhausted s) (.exhausted s')

theorem Alike.mono {Q Q' : α → σ → σ → Prop} {E E' : σ → σ → Prop} {o o' : Outcome σ ε α}
    (h : o.Alike Q E o') (hQ : ∀ a s s', Q a s s' → Q' a s s') (hE : ∀ s s', E s s' → E' s s') :
    o.Alike Q' E' o' := by
  cases h with
  | ok h => exact .ok (hQ _ _ _ h)
  | error h => exact .error (hE _ _ h)
  | crashed h => exact .crashed (hE _ _ h)
  | blocked h => exact .blocked (hE _ _ h)
  | exhausted h => exact .exhausted (hE _ _ h)

theorem reached_of_state? {o : Outcome σ ε α} {s : σ} (h : o.state? = some s) : o.reached = s := by
  cases o <;> cases h <;> rfl

end Outcome

namespace Step

theorem bind_of_ok {a : α} {x : Step σ ε α} {s t : σ} (h : x s = .ok a t) (f : α → Step σ ε β) :
    (x >>= f) s = f a t := by
  rw [run_bind, h]
  rfl

theorem bind_of_error {e : ε} {x : Step σ ε α} {s t : σ} (h : x s = .error e t) (f : α → Step σ ε β) :
    (x >>= f) s = .error e t := by
  rw [run_bind, h]
  rfl

theorem exists_of_bind_ok {x : Step σ ε α} {s t : σ} {f : α → Step σ ε β} {b : β} (h : (x >>= f) s = .ok b t) :
    ∃ a u, x s = .ok a u ∧ f a u = .ok b t := by
  rw [run_bind] at h
  cases hx : x s <;> rw [hx] at h <;> try cases h
  exact ⟨_, _, rfl, h⟩

/-- From related states, `x` and `x'` end in the same way. -/
def Alike (R : σ → σ → Prop) (x x' : Step σ ε α) (Q : α → σ → σ → Prop) (E : σ → σ → Prop) : Prop :=
  ∀ s s', R s s' → (x s).Alike Q E (x' s')

namespace Alike

variable {R R' E E' : σ → σ → Prop} {Q Q' : α → σ → σ → Prop} {x x' : Step σ ε α}

theorem mono (h : Alike R x x' Q E) (hR : ∀ s s', R' s s' → R s s')
    (hQ : ∀ a s s', Q a s s' → Q' a s s') (hE : ∀ s s', E s s' → E' s s') :
    Alike R' x x' Q' E' := fun s s' hs => (h s s' (hR s s' hs)).mono hQ hE

theorem weaken (h : Alike R x x' Q E) (hQ : ∀ a s s', Q a s s' → Q' a s s') :
    Alike R x x' Q' E := h.mono (fun _ _ => id) hQ fun _ _ => id

theorem strengthen (h : Alike R x x' Q E) (hR : ∀ s s', R' s s' → R s s') : Alike R' x x' Q E :=
  h.mono hR (fun _ _ _ => id) fun _ _ => id

theorem pure {a : α} (h : ∀ s s', R s s' → Q a s s') : Alike R (pure a : Step σ ε α) (pure a) Q E :=
  fun s s' hs => .ok (h s s' hs)

theorem fail {e : ε} (h : ∀ s s', R s s' → E s s') :
    Alike R (fail e : Step σ ε α) (fail e) Q E := fun s s' hs => .error (h s s' hs)

theorem crash (h : ∀ s s', R s s' → E s s') : Alike R (crash : Step σ ε α) crash Q E :=
  fun s s' hs => .crashed (h s s' hs)

theorem block (h : ∀ s s', R s s' → E s s') : Alike R (block : Step σ ε α) block Q E :=
  fun s s' hs => .blocked (h s s' hs)

theorem exhaust (h : ∀ s s', R s s' → E s s') : Alike R (exhaust : Step σ ε α) exhaust Q E :=
  fun s s' hs => .exhausted (h s s' hs)

theorem bind {S : β → σ → σ → Prop} {f f' : α → Step σ ε β} (hx : Alike R x x' Q E)
    (hf : ∀ a, Alike (Q a) (f a) (f' a) S E) : Alike R (x >>= f) (x' >>= f') S E := by
  intro s s' hs
  rw [run_bind, run_bind]
  have h := hx s s' hs
  cases hxs : x s <;> cases hxs' : x' s' <;> rw [hxs, hxs'] at h <;> cases h <;>
    simp only [Outcome.andThen]
  case ok.ok h => exact hf _ _ _ h
  case error.error h => exact .error h
  case crashed.crashed h => exact .crashed h
  case blocked.blocked h => exact .blocked h
  case exhausted.exhausted h => exact .exhausted h

theorem map {S : β → σ → σ → Prop} {f : α → β} (hx : Alike R x x' Q E)
    (hS : ∀ a s s', Q a s s' → S (f a) s s') : Alike R (f <$> x) (f <$> x') S E := by
  rw [← bind_pure_comp, ← bind_pure_comp]
  exact hx.bind fun a => .pure (hS a)

/-- Both computations read their states. -/
theorem get_bind {k k' : σ → Step σ ε α}
    (h : ∀ t t', R t t' → Alike (fun s s' => s = t ∧ s' = t') (k t) (k' t') Q E) :
    Alike R (get >>= k) (get >>= k') Q E := fun s s' hs => h s s' hs s s' ⟨rfl, rfl⟩

theorem gets {f : σ → α} (h : ∀ s s', R s s' → f s' = f s ∧ Q (f s) s s') :
    Alike R (gets f : Step σ ε α) (gets f) Q E := fun s s' hs => by
  obtain ⟨hf, hQ⟩ := h s s' hs
  unfold Step.gets
  rw [hf]
  exact .ok hQ

theorem modify {f f' : σ → σ} {Q : Unit → σ → σ → Prop} (h : ∀ s s', R s s' → Q () (f s) (f' s')) :
    Alike R (modify f : Step σ ε Unit) (modify f') Q E := fun s s' hs => .ok (h s s' hs)

theorem ofExcept {r : Except ε α} (hQ : ∀ a, r = .ok a → ∀ s s', R s s' → Q a s s')
    (hE : ∀ s s', R s s' → E s s') : Alike R (ofExcept r) (ofExcept r) Q E := by
  cases r with
  | ok a => exact .pure (hQ a rfl)
  | error e => exact .fail hE

theorem ofOption {r : Option α} (hQ : ∀ a, r = some a → ∀ s s', R s s' → Q a s s')
    (hE : ∀ s s', R s s' → E s s') : Alike R (ofOption r : Step σ ε α) (ofOption r) Q E := by
  cases r with
  | some a => exact .pure (hQ a rfl)
  | none => exact .exhaust hE

theorem failWith {f : σ → Option ε} (hf : ∀ s s', R s s' → f s' = f s)
    (hE : ∀ s s', R s s' → E s s') : Alike R (failWith f : Step σ ε α) (failWith f) Q E := by
  intro s s' hs
  unfold Step.failWith
  rw [hf s s' hs]
  cases f s with
  | some e => exact .error (hE s s' hs)
  | none => exact .exhausted (hE s s' hs)

theorem mapErrorWith {f : σ → ε → Option ε'} (hx : Alike R x x' Q E)
    (hf : ∀ s s' e, E s s' → f s' e = f s e) :
    Alike R (x.mapErrorWith f) (x'.mapErrorWith f) Q E := by
  intro s s' hs
  have h := hx s s' hs
  unfold Step.mapErrorWith
  cases hxs : x s <;> cases hxs' : x' s' <;> rw [hxs, hxs'] at h <;> cases h
  case ok.ok h => exact .ok h
  case error.error e s s' h => exact Alike.failWith (fun s s' => hf s s' e) (fun _ _ => id) s s' h
  case crashed.crashed h => exact .crashed h
  case blocked.blocked h => exact .blocked h
  case exhausted.exhausted h => exact .exhausted h

theorem mapError {f : ε → ε'} (hx : Alike R x x' Q E) :
    Alike R (x.mapError f) (x'.mapError f) Q E := hx.mapErrorWith fun _ _ _ _ => rfl

theorem attempt (hx : Alike R x x' Q E) :
    Alike R (x.attempt : Step σ ε' (Except ε α)) x'.attempt
      (fun r s s' => match r with
        | .ok a => Q a s s'
        | .error _ => E s s') E := by
  intro s s' hs
  have h := hx s s' hs
  unfold Step.attempt
  cases hxs : x s <;> cases hxs' : x' s' <;> rw [hxs, hxs'] at h <;> cases h
  case ok.ok h => exact .ok h
  case error.error h => exact .ok h
  case crashed.crashed h => exact .crashed h
  case blocked.blocked h => exact .blocked h
  case exhausted.exhausted h => exact .exhausted h

theorem whenCrashed {tidy tidy' : σ → σ} (hx : Alike R x x' Q E)
    (htidy : ∀ s s', E s s' → E (tidy s) (tidy' s')) :
    Alike R (x.whenCrashed tidy) (x'.whenCrashed tidy') Q E := by
  intro s s' hs
  have h := hx s s' hs
  unfold Step.whenCrashed
  cases hxs : x s <;> cases hxs' : x' s' <;> rw [hxs, hxs'] at h <;> cases h
  case ok.ok h => exact .ok h
  case error.error h => exact .error h
  case crashed.crashed h => exact .crashed (htidy _ _ h)
  case blocked.blocked h => exact .blocked h
  case exhausted.exhausted h => exact .exhausted h

/-- What tidies up starts from the end of the computation, or from its failure. -/
theorem thenAlways {tidy tidy' : Step σ ε β} (hx : Alike R x x' Q E)
    (hok : ∀ a, Alike (Q a) tidy tidy' (fun _ => Q' a) E)
    (herror : Alike E tidy tidy' (fun _ => E) E) :
    Alike R (x.thenAlways tidy) (x'.thenAlways tidy') Q' E := by
  unfold Step.thenAlways
  refine hx.attempt.bind fun r => ?_
  cases r with
  | ok a =>
    refine (hok a).attempt.bind fun r => ?_
    cases r with
    | ok b => exact .pure fun _ _ h => h
    | error e => exact .fail fun _ _ h => h
  | error e =>
    refine herror.attempt.bind fun r => ?_
    refine .fail fun s s' h => ?_
    cases r with
    | ok b => exact h
    | error e => exact h

/-! ## Repetition -/

/-- The states after a round: as they are where a result is given, or ready for another round. -/
def Rounded (Q : α → σ → σ → Prop) (R : σ → σ → Prop) : Option α → σ → σ → Prop
  | some a => Q a
  | none => R

theorem loop {limit : Nat} {round round' : Step σ ε (Option α)}
    (h : Alike R round round' (Rounded Q R) E) (hE : ∀ s s', R s s' → E s s') :
    Alike R (loop limit round) (loop limit round') Q E := by
  induction limit with
  | zero => exact .exhaust hE
  | succ limit ih =>
    rw [loop_succ, loop_succ]
    refine h.bind fun r => ?_
    cases r with
    | some a => exact .pure fun _ _ h => h
    | none => exact ih

theorem firstOf {l : List β} {round round' : β → Step σ ε (Option α)}
    (h : ∀ b ∈ l, Alike R (round b) (round' b) (Rounded Q R) E) :
    Alike R (firstOf round l) (firstOf round' l) (Rounded Q R) E := by
  induction l with
  | nil => exact .pure fun _ _ h => h
  | cons b l ih =>
    rw [firstOf_cons, firstOf_cons]
    refine (h b List.mem_cons_self).bind fun r => ?_
    cases r with
    | some a => exact .pure fun _ _ h => h
    | none => exact ih fun c hc => h c (List.mem_cons_of_mem _ hc)

theorem mapM {l : List β} {f f' : β → Step σ ε α}
    (h : ∀ b ∈ l, Alike R (f b) (f' b) (fun _ => R) E) :
    Alike R (l.mapM f) (l.mapM f') (fun _ => R) E := by
  induction l with
  | nil => exact .pure fun _ _ h => h
  | cons b l ih =>
    rw [List.mapM_cons, List.mapM_cons]
    refine (h b List.mem_cons_self).bind fun a => ?_
    exact (ih fun c hc => h c (List.mem_cons_of_mem _ hc)).bind fun _ => .pure fun _ _ h => h

theorem foldlM {l : List β} {f f' : α → β → Step σ ε α} {a : α} {P : α → Prop} (ha : P a)
    (h : ∀ a, P a → ∀ b ∈ l, Alike R (f a b) (f' a b) (fun a s s' => R s s' ∧ P a) E) :
    Alike R (l.foldlM f a) (l.foldlM f' a) (fun a s s' => R s s' ∧ P a) E := by
  induction l generalizing a with
  | nil => exact .pure fun _ _ hs => ⟨hs, ha⟩
  | cons b l ih =>
    rw [List.foldlM_cons, List.foldlM_cons]
    refine (h a ha b List.mem_cons_self).bind fun a' s s' hs => ?_
    exact ih hs.2 (fun a ha c hc => h a ha c (List.mem_cons_of_mem _ hc)) s s' hs.1

theorem forM {l : List β} {f f' : β → Step σ ε PUnit}
    (h : ∀ b ∈ l, Alike R (f b) (f' b) (fun _ => R) E) :
    Alike R (l.forM f) (l.forM f') (fun _ => R) E := by
  induction l with
  | nil => exact .pure fun _ _ h => h
  | cons b l ih =>
    show Alike R (f b >>= fun _ => l.forM f) (f' b >>= fun _ => l.forM f') _ E
    exact (h b List.mem_cons_self).bind fun _ => ih fun c hc => h c (List.mem_cons_of_mem _ hc)

/-! ## Parts of the state -/

/-- The two computations work on equal parts of their states. -/
theorem zoom {R : τ → τ → Prop} {Q : α → τ → τ → Prop} {E : τ → τ → Prop} {part : τ → σ}
    {replace : τ → σ → τ} {x : Step σ ε α} (hpart : ∀ s s', R s s' → part s' = part s)
    (hQ : ∀ a p s s', R s s' → Q a (replace s p) (replace s' p))
    (hE : ∀ p s s', R s s' → E (replace s p) (replace s' p)) :
    Alike R (x.zoom part replace) (x.zoom part replace) Q E := by
  intro s s' hs
  unfold Step.zoom
  rw [hpart s s' hs]
  cases x (part s) with
  | ok a p => exact .ok (hQ a p s s' hs)
  | error e p => exact .error (hE p s s' hs)
  | crashed p => exact .crashed (hE p s s' hs)
  | blocked p => exact .blocked (hE p s s' hs)
  | exhausted p => exact .exhausted (hE p s s' hs)

theorem update {R : τ → τ → Prop} {Q : α → τ → τ → Prop} {E : τ → τ → Prop} {part : τ → σ}
    {replace : τ → σ → τ} {f f' : σ → Except ε (α × σ)}
    (h : ∀ s s', R s s' → (∃ e, f (part s) = .error e ∧ f' (part s') = .error e ∧ E s s') ∨
      ∃ a p p', f (part s) = .ok (a, p) ∧ f' (part s') = .ok (a, p') ∧
        Q a (replace s p) (replace s' p')) :
    Alike R (update part replace f) (update part replace f') Q E := by
  intro s s' hs
  unfold Step.update
  rcases h s s' hs with ⟨e, he, he', hE⟩ | ⟨a, p, p', hp, hp', hQ⟩
  · rw [he, he']
    exact .error hE
  · rw [hp, hp']
    exact .ok hQ

end Alike

end Step

end TreeScript
