import Mathlib.Data.List.Forall2
import TreeScript.Proofs.Step

/-!
# Computations that follow each other

`Step.Follows c R x x' Q E B` compares two computations on the `Terms` `c`: from states related by
`R`, the second computation ends the way the first does. `Q` relates values and states where both
return, `E` errors and states where both fail, and `B` the states where both break off or wait.

The comparison asks nothing where the first computation goes astray. What is astray stays so,
because every computation only lets the state of the first side grow, and this is a part of
`Follows`.

Two computations that are `Alike` have equal values and errors and never go astray. Here values and
errors may differ. The rules are again one for each way to build a computation.
-/

namespace TreeScript

variable {σ τ ε ε' α β : Type}

namespace Outcome

/-- The state in which a computation returned or failed. -/
def returned? : Outcome σ ε α → Option σ
  | ok _ s | error _ s => some s
  | crashed _ | blocked _ | exhausted _ => none

/-- The value that a computation returned. -/
def value? : Outcome σ ε α → Option α
  | ok a _ => some a
  | error .. | crashed _ | blocked _ | exhausted _ => none

/-- The error that a computation failed with. -/
def failure? : Outcome σ ε α → Option ε
  | error e _ => some e
  | ok .. | crashed _ | blocked _ | exhausted _ => none

theorem exists_of_failure? {o : Outcome σ ε α} {e : ε} (h : o.failure? = some e) :
    ∃ s, o = .error e s := by
  cases o <;> cases h
  exact ⟨_, rfl⟩

/-- Whether a computation broke off. -/
def isCrashed : Outcome σ ε α → Bool
  | crashed _ => true
  | ok .. | error .. | blocked _ | exhausted _ => false

theorem exists_of_isCrashed {o : Outcome σ ε α} (h : o.isCrashed = true) : ∃ s, o = .crashed s := by
  cases o <;> cases h
  exact ⟨_, rfl⟩

end Outcome

theorem rel_mono {R R' : α → β → Prop} {o : Option α} {o' : Option β} (h : Option.Rel R o o')
    (hR : ∀ a b, R a b → R' a b) : Option.Rel R' o o' := by
  cases h with
  | some h => exact .some (hR _ _ h)
  | none => exact .none

theorem rel_self {R : α → α → Prop} {o : Option α} (h : ∀ a, o = some a → R a a) :
    Option.Rel R o o := by
  cases o with
  | none => exact .none
  | some a => exact .some (h a rfl)

theorem rel_map {R : α → α → Prop} {S : β → β → Prop} {f f' : α → β} {o o' : Option α}
    (h : Option.Rel R o o') (hf : ∀ a a', R a a' → S (f a) (f' a')) :
    Option.Rel S (o.map f) (o'.map f') := by
  cases h with
  | some h => exact .some (hf _ _ h)
  | none => exact .none

/-- Two results: related values or related errors. -/
inductive Results (V : α → α → Prop) (F : ε → ε → Prop) : Except ε α → Except ε α → Prop
  | ok {a a' : α} (h : V a a') : Results V F (.ok a) (.ok a')
  | error {e e' : ε} (h : F e e') : Results V F (.error e) (.error e')

theorem Results.refl {V : α → α → Prop} {F : ε → ε → Prop} (hV : ∀ a, V a a) (hF : ∀ e, F e e)
    (r : Except ε α) : Results V F r r := by
  cases r with
  | ok a => exact .ok (hV a)
  | error e => exact .error (hF e)

namespace Results

variable {V : α → α → Prop} {F : ε → ε → Prop} {r r' : Except ε α}

theorem imp {W : α → α → Prop} (h : Results V F r r') (hW : ∀ a a', r = .ok a → V a a' → W a a') :
    Results W F r r' := by
  cases h with
  | ok h => exact .ok (hW _ _ rfl h)
  | error h => exact .error h

theorem bind {W : β → β → Prop} {k k' : α → Except ε β} (h : Results V F r r')
    (hk : ∀ a a', r = .ok a → V a a' → Results W F (k a) (k' a')) :
    Results W F (r >>= k) (r' >>= k') := by
  cases h with
  | ok h => exact hk _ _ rfl h
  | error h => exact .error h

end Results

/-- The terms on which computations are compared. -/
structure Terms (σ : Type) where
  /-- What every computation may do to the state on the first side. -/
  grows : σ → σ → Prop
  refl : ∀ s, grows s s
  trans : ∀ {s t u}, grows s t → grows t u → grows s u
  /-- Whether the comparison asks nothing any more. -/
  astray : σ → Prop
  astray_mono : ∀ {s t}, grows s t → astray s → astray t

namespace Step

theorem thenAlways_run (x : Step σ ε α) (tidy : Step σ ε β) (s : σ) :
    x.thenAlways tidy s = match x s with
      | .ok a t => match tidy t with
        | .ok _ u => .ok a u
        | .error e u => .error e u
        | .crashed u => .crashed u
        | .blocked u => .blocked u
        | .exhausted u => .exhausted u
      | .error e t => match tidy t with
        | .ok _ u => .error e u
        | .error _ u => .error e u
        | .crashed u => .crashed u
        | .blocked u => .blocked u
        | .exhausted u => .exhausted u
      | .crashed t => .crashed t
      | .blocked t => .blocked t
      | .exhausted t => .exhausted t := by
  simp only [Step.thenAlways, run_bind, Step.attempt]
  cases x s with
  | ok a t =>
    simp only [Outcome.andThen]
    cases tidy t <;> rfl
  | error e t =>
    simp only [Outcome.andThen]
    cases tidy t <;> rfl
  | crashed | blocked | exhausted => rfl

end Step

namespace Outcome

variable {c : Terms σ} {Q Q' : α → α → σ → σ → Prop} {E E' : ε → ε → σ → σ → Prop}
  {B B' : σ → σ → Prop} {o o' : Outcome σ ε α}

/-- The computation has gone astray. -/
def Astray (c : Terms σ) (o : Outcome σ ε α) : Prop := c.astray o.reached

/-- The state has grown at the end of the computation. -/
def Grown (c : Terms σ) (s : σ) (o : Outcome σ ε α) : Prop := c.grows s o.reached

/-- The second computation has ended the way the first did. -/
inductive Follows (c : Terms σ) (Q : α → α → σ → σ → Prop) (E : ε → ε → σ → σ → Prop)
    (B : σ → σ → Prop) : Outcome σ ε α → Outcome σ ε α → Prop
  | ok {a a' : α} {s s' : σ} (h : Q a a' s s') : Follows c Q E B (.ok a s) (.ok a' s')
  | error {e e' : ε} {s s' : σ} (h : E e e' s s') : Follows c Q E B (.error e s) (.error e' s')
  | crashed {s s' : σ} (h : B s s') : Follows c Q E B (.crashed s) (.crashed s')
  | blocked {s s' : σ} (h : B s s') : Follows c Q E B (.blocked s) (.blocked s')
  | exhausted {s s' : σ} (h : B s s') : Follows c Q E B (.exhausted s) (.exhausted s')
  | astray {o o' : Outcome σ ε α} (h : o.Astray c) : Follows c Q E B o o'

theorem Follows.mono (h : o.Follows c Q E B o') (hQ : ∀ a a' s s', Q a a' s s' → Q' a a' s s')
    (hE : ∀ e e' s s', E e e' s s' → E' e e' s s') (hB : ∀ s s', B s s' → B' s s') :
    o.Follows c Q' E' B' o' := by
  cases h with
  | ok h => exact .ok (hQ _ _ _ _ h)
  | error h => exact .error (hE _ _ _ _ h)
  | crashed h => exact .crashed (hB _ _ h)
  | blocked h => exact .blocked (hB _ _ h)
  | exhausted h => exact .exhausted (hB _ _ h)
  | astray h => exact .astray h

/-- What is astray stays so. -/
theorem Grown.astray {s : σ} (h : o.Grown c s) (hs : c.astray s) : o.Astray c := c.astray_mono h hs

theorem Grown.bind {x : Step σ ε α} {f : α → Step σ ε β} {s : σ} (hx : (x s).Grown c s)
    (hf : ∀ a t, (f a t).Grown c t) : ((x >>= f) s).Grown c s := by
  rw [Step.run_bind]
  cases hxs : x s <;> rw [hxs] at hx
  case ok a u => exact c.trans hx (hf a u)
  case error | crashed | blocked | exhausted => exact hx

theorem Grown.thenAlways {x : Step σ ε α} {tidy : Step σ ε β} {s : σ} (hx : (x s).Grown c s)
    (ht : ∀ t, (tidy t).Grown c t) : ((x.thenAlways tidy) s).Grown c s := by
  rw [Step.thenAlways_run]
  cases hxs : x s <;> rw [hxs] at hx
  case ok a u =>
    have hu := ht u
    dsimp only
    cases htu : tidy u <;> rw [htu] at hu <;> exact c.trans hx hu
  case error e u =>
    have hu := ht u
    dsimp only
    cases htu : tidy u <;> rw [htu] at hu <;> exact c.trans hx hu
  case crashed | blocked | exhausted => exact hx

end Outcome

namespace Step

/-- From related states, `x'` ends the way `x` does. -/
structure Follows (c : Terms σ) (R : σ → σ → Prop) (x x' : Step σ ε α)
    (Q : α → α → σ → σ → Prop) (E : ε → ε → σ → σ → Prop) (B : σ → σ → Prop) : Prop where
  grows : ∀ s, (x s).Grown c s
  ends : ∀ s s', R s s' → (x s).Follows c Q E B (x' s')

namespace Follows

variable {c : Terms σ} {R R' B B' : σ → σ → Prop} {Q Q' : α → α → σ → σ → Prop}
  {E E' : ε → ε → σ → σ → Prop} {x x' : Step σ ε α}

theorem mono (h : Follows c R x x' Q E B) (hR : ∀ s s', R' s s' → R s s')
    (hQ : ∀ a a' s s', Q a a' s s' → Q' a a' s s') (hE : ∀ e e' s s', E e e' s s' → E' e e' s s')
    (hB : ∀ s s', B s s' → B' s s') : Follows c R' x x' Q' E' B' :=
  ⟨h.grows, fun s s' hs => (h.ends s s' (hR s s' hs)).mono hQ hE hB⟩

theorem weaken (h : Follows c R x x' Q E B) (hQ : ∀ a a' s s', Q a a' s s' → Q' a a' s s') :
    Follows c R x x' Q' E B := h.mono (fun _ _ => id) hQ (fun _ _ _ _ => id) fun _ _ => id

theorem strengthen (h : Follows c R x x' Q E B) (hR : ∀ s s', R' s s' → R s s') :
    Follows c R' x x' Q E B :=
  h.mono hR (fun _ _ _ _ => id) (fun _ _ _ _ => id) fun _ _ => id

theorem pure {a a' : α} (h : ∀ s s', R s s' → Q a a' s s') :
    Follows c R (pure a : Step σ ε α) (pure a') Q E B :=
  ⟨c.refl, fun s s' hs => .ok (h s s' hs)⟩

theorem fail {e e' : ε} (h : ∀ s s', R s s' → E e e' s s') :
    Follows c R (fail e : Step σ ε α) (fail e') Q E B :=
  ⟨c.refl, fun s s' hs => .error (h s s' hs)⟩

theorem crash (h : ∀ s s', R s s' → B s s') : Follows c R (crash : Step σ ε α) crash Q E B :=
  ⟨c.refl, fun s s' hs => .crashed (h s s' hs)⟩

theorem block (h : ∀ s s', R s s' → B s s') : Follows c R (block : Step σ ε α) block Q E B :=
  ⟨c.refl, fun s s' hs => .blocked (h s s' hs)⟩

theorem exhaust (h : ∀ s s', R s s' → B s s') : Follows c R (exhaust : Step σ ε α) exhaust Q E B :=
  ⟨c.refl, fun s s' hs => .exhausted (h s s' hs)⟩

theorem bind {S : β → β → σ → σ → Prop} {f f' : α → Step σ ε β} (hx : Follows c R x x' Q E B)
    (hf : ∀ a a', Follows c (Q a a') (f a) (f' a') S E B) :
    Follows c R (x >>= f) (x' >>= f') S E B := by
  refine ⟨fun s => (hx.grows s).bind fun a => (hf a a).grows, fun s s' hs => ?_⟩
  rw [run_bind, run_bind]
  have h := hx.ends s s' hs
  generalize x s = o at h
  generalize x' s' = o' at h
  cases h with
  | ok h => exact (hf _ _).ends _ _ h
  | error h => exact .error h
  | crashed h => exact .crashed h
  | blocked h => exact .blocked h
  | exhausted h => exact .exhausted h
  | astray h =>
    refine .astray ?_
    cases o with
    | ok a t => exact ((hf a a).grows t).astray h
    | error | crashed | blocked | exhausted => exact h

theorem map {S : β → β → σ → σ → Prop} {f : α → β} (hx : Follows c R x x' Q E B)
    (hS : ∀ a a' s s', Q a a' s s' → S (f a) (f a') s s') :
    Follows c R (f <$> x) (f <$> x') S E B := by
  rw [← bind_pure_comp, ← bind_pure_comp]
  exact hx.bind fun a a' => .pure (hS a a')

theorem gets {f : σ → α} {f' : σ → α} (h : ∀ s s', R s s' → Q (f s) (f' s') s s') :
    Follows c R (gets f : Step σ ε α) (gets f') Q E B :=
  ⟨c.refl, fun s s' hs => .ok (h s s' hs)⟩

theorem modify {f f' : σ → σ} {Q : Unit → Unit → σ → σ → Prop} (hgrows : ∀ s, c.grows s (f s))
    (h : ∀ s s', R s s' → Q () () (f s) (f' s')) :
    Follows c R (modify f : Step σ ε Unit) (modify f') Q E B :=
  ⟨hgrows, fun s s' hs => .ok (h s s' hs)⟩

theorem ofExcept {V : α → α → Prop} {F : ε → ε → Prop} {r r' : Except ε α} (h : Results V F r r')
    (hQ : ∀ a a', V a a' → ∀ s s', R s s' → Q a a' s s')
    (hE : ∀ e e', F e e' → ∀ s s', R s s' → E e e' s s') :
    Follows c R (ofExcept r) (ofExcept r') Q E B := by
  cases h with
  | ok h => exact .pure (hQ _ _ h)
  | error h => exact .fail (hE _ _ h)

theorem ofOption {r : Option α} (hQ : ∀ a s s', R s s' → Q a a s s')
    (hB : ∀ s s', R s s' → B s s') : Follows c R (ofOption r : Step σ ε α) (ofOption r) Q E B := by
  cases r with
  | some a => exact .pure (hQ a)
  | none => exact .exhaust hB

theorem failWith {f f' : σ → Option ε}
    (hf : ∀ s s', R s s' → Option.Rel (fun e e' => E e e' s s') (f s) (f' s'))
    (hB : ∀ s s', R s s' → f s = none → B s s') :
    Follows c R (failWith f : Step σ ε α) (failWith f') Q E B := by
  unfold Step.failWith
  refine ⟨fun s => ?_, fun s s' hs => ?_⟩
  · cases f s <;> exact c.refl s
  · have h := hf s s' hs
    cases he : f s <;> cases he' : f' s' <;> rw [he, he'] at h <;> cases h
    case some.some h => exact .error h
    case none.none => exact .exhausted (hB s s' hs he)

theorem mapErrorWith {E' : ε' → ε' → σ → σ → Prop} {f f' : σ → ε → Option ε'}
    (hx : Follows c R x x' Q E B)
    (hf : ∀ e e' s s', E e e' s s' → Option.Rel (fun e e' => E' e e' s s') (f s e) (f' s' e'))
    (hB : ∀ e e' s s', E e e' s s' → f s e = none → B s s') :
    Follows c R (x.mapErrorWith f) (x'.mapErrorWith f') Q E' B := by
  have hfail (e e' : ε) := failWith (c := c) (α := α) (Q := Q) (B := B) (hf e e') (hB e e')
  unfold Step.mapErrorWith
  refine ⟨fun s => ?_, fun s s' hs => ?_⟩
  · have h := hx.grows s
    cases hxs : x s <;> rw [hxs] at h
    case error e u => exact c.trans h ((hfail e e).grows u)
    case ok | crashed | blocked | exhausted => exact h
  · have h := hx.ends s s' hs
    generalize x s = o at h
    generalize x' s' = o' at h
    cases h with
    | ok h => exact .ok h
    | error h => exact (hfail _ _).ends _ _ h
    | crashed h => exact .crashed h
    | blocked h => exact .blocked h
    | exhausted h => exact .exhausted h
    | astray h =>
      cases o with
      | error e u => exact .astray (((hfail e e).grows u).astray h)
      | ok | crashed | blocked | exhausted => exact .astray h

theorem mapError {E' : ε' → ε' → σ → σ → Prop} {f f' : ε → ε'} (hx : Follows c R x x' Q E B)
    (hf : ∀ e e' s s', E e e' s s' → E' (f e) (f' e') s s') :
    Follows c R (x.mapError f) (x'.mapError f') Q E' B :=
  hx.mapErrorWith (fun e e' s s' h => .some (hf e e' s s' h)) fun _ _ _ _ _ h =>
    absurd h (Option.some_ne_none _)

/-- The relation between what two computations were found to give. -/
def Attempted (Q : α → α → σ → σ → Prop) (E : ε → ε → σ → σ → Prop) :
    Except ε α → Except ε α → σ → σ → Prop
  | .ok a, .ok a' => Q a a'
  | .error e, .error e' => E e e'
  | _, _ => fun _ _ => False

theorem attempt {E' : ε' → ε' → σ → σ → Prop} (hx : Follows c R x x' Q E B) :
    Follows c R (x.attempt : Step σ ε' (Except ε α)) x'.attempt (Attempted Q E) E' B := by
  unfold Step.attempt
  refine ⟨fun s => ?_, fun s s' hs => ?_⟩
  · have h := hx.grows s
    cases hxs : x s <;> rw [hxs] at h <;> exact h
  · have h := hx.ends s s' hs
    generalize x s = o at h
    generalize x' s' = o' at h
    cases h with
    | ok h => exact .ok h
    | error h => exact .ok h
    | crashed h => exact .crashed h
    | blocked h => exact .blocked h
    | exhausted h => exact .exhausted h
    | astray h => cases o <;> exact .astray h

theorem whenCrashed {tidy tidy' : σ → σ} (hgrows : ∀ s, c.grows s (tidy s))
    (hx : Follows c R x x' Q E B) (htidy : ∀ s s', B s s' → B (tidy s) (tidy' s')) :
    Follows c R (x.whenCrashed tidy) (x'.whenCrashed tidy') Q E B := by
  unfold Step.whenCrashed
  refine ⟨fun s => ?_, fun s s' hs => ?_⟩
  · have h := hx.grows s
    cases hxs : x s <;> rw [hxs] at h
    case crashed u => exact c.trans h (hgrows u)
    case ok | error | blocked | exhausted => exact h
  · have h := hx.ends s s' hs
    generalize x s = o at h
    generalize x' s' = o' at h
    cases h with
    | ok h => exact .ok h
    | error h => exact .error h
    | crashed h => exact .crashed (htidy _ _ h)
    | blocked h => exact .blocked h
    | exhausted h => exact .exhausted h
    | astray h =>
      cases o with
      | crashed u => exact .astray (c.astray_mono (hgrows u) h)
      | ok | error | blocked | exhausted => exact .astray h

/-- What tidies up starts from the end of the computation, or from its failure. -/
theorem thenAlways {tidy tidy' : Step σ ε β} (hgrows : ∀ s, (tidy s).Grown c s)
    (hx : Follows c R x x' Q E B)
    (hok : ∀ a a', Follows c (Q a a') tidy tidy' (fun _ _ => Q' a a') E' B)
    (herror : ∀ e e', Follows c (E e e') tidy tidy' (fun _ _ => E' e e') (fun _ _ => E' e e') B) :
    Follows c R (x.thenAlways tidy) (x'.thenAlways tidy') Q' E' B := by
  refine ⟨fun s => (hx.grows s).thenAlways hgrows, fun s s' hs => ?_⟩
  rw [thenAlways_run, thenAlways_run]
  have h := hx.ends s s' hs
  generalize x s = o at h
  generalize x' s' = o' at h
  cases h with
  | @ok a a' t t' h =>
    have h₂ := (hok a a').ends t t' h
    dsimp only
    generalize tidy t = o at h₂
    generalize tidy' t' = o' at h₂
    cases h₂ with
    | ok h => exact .ok h
    | error h => exact .error h
    | crashed h => exact .crashed h
    | blocked h => exact .blocked h
    | exhausted h => exact .exhausted h
    | astray h => cases o <;> exact .astray h
  | @error e e' t t' h =>
    have h₂ := (herror e e').ends t t' h
    dsimp only
    generalize tidy t = o at h₂
    generalize tidy' t' = o' at h₂
    cases h₂ with
    | ok h => exact .error h
    | error h => exact .error h
    | crashed h => exact .crashed h
    | blocked h => exact .blocked h
    | exhausted h => exact .exhausted h
    | astray h => cases o <;> exact .astray h
  | crashed h => exact .crashed h
  | blocked h => exact .blocked h
  | exhausted h => exact .exhausted h
  | astray h =>
    refine .astray ?_
    cases o with
    | ok a t | error e t =>
      have h₂ := (hgrows t).astray h
      dsimp only
      cases hu : tidy t <;> rw [hu] at h₂ <;> exact h₂
    | crashed | blocked | exhausted => exact h

/-! ## Equal values -/

/-- The values are equal, and the states are related on account of them. -/
def Same (K : α → σ → σ → Prop) : α → α → σ → σ → Prop := fun a a' s s' => a = a' ∧ K a s s'

theorem bind_same {K : α → σ → σ → Prop} {S : β → β → σ → σ → Prop} {f f' : α → Step σ ε β}
    (hx : Follows c R x x' (Same K) E B) (hf : ∀ a, Follows c (K a) (f a) (f' a) S E B) :
    Follows c R (x >>= f) (x' >>= f') S E B :=
  hx.bind fun a _ => ⟨(hf a).grows, fun s s' h => h.1 ▸ (hf a).ends s s' h.2⟩

theorem loop {K : α → σ → σ → Prop} {limit : Nat} {round round' : Step σ ε (Option α)}
    (h : Follows c R round round' (Same (Alike.Rounded K R)) E B) (hB : ∀ s s', R s s' → B s s') :
    Follows c R (loop limit round) (loop limit round') (Same K) E B := by
  induction limit with
  | zero => exact .exhaust hB
  | succ limit ih =>
    rw [loop_succ, loop_succ]
    refine h.bind_same fun r => ?_
    cases r with
    | some a => exact .pure fun _ _ h => ⟨rfl, h⟩
    | none => exact ih

theorem firstOf {K : α → σ → σ → Prop} {l : List β} {round round' : β → Step σ ε (Option α)}
    (h : ∀ b, Follows c R (round b) (round' b) (Same (Alike.Rounded K R)) E B) :
    Follows c R (firstOf round l) (firstOf round' l) (Same (Alike.Rounded K R)) E B := by
  induction l with
  | nil => exact .pure fun _ _ h => ⟨rfl, h⟩
  | cons b l ih =>
    rw [firstOf_cons, firstOf_cons]
    refine (h b).bind_same fun r => ?_
    cases r with
    | some a => exact .pure fun _ _ h => ⟨rfl, h⟩
    | none => exact ih

theorem mapM {l : List β} {f f' : β → Step σ ε α}
    (h : ∀ b ∈ l, Follows c R (f b) (f' b) (Same fun _ => R) E B) :
    Follows c R (l.mapM f) (l.mapM f') (Same fun _ => R) E B := by
  induction l with
  | nil => exact .pure fun _ _ h => ⟨rfl, h⟩
  | cons b l ih =>
    rw [List.mapM_cons, List.mapM_cons]
    refine (h b List.mem_cons_self).bind_same fun a => ?_
    exact (ih fun b hb => h b (List.mem_cons_of_mem _ hb)).bind_same fun _ =>
      .pure fun _ _ h => ⟨rfl, h⟩

theorem foldlM {K : α → σ → σ → Prop} {l : List β} {f f' : α → β → Step σ ε α}
    (h : ∀ a, ∀ b ∈ l, Follows c (K a) (f a b) (f' a b) (Same K) E B) (a : α) :
    Follows c (K a) (l.foldlM f a) (l.foldlM f' a) (Same K) E B := by
  induction l generalizing a with
  | nil => exact .pure fun _ _ h => ⟨rfl, h⟩
  | cons b l ih =>
    rw [List.foldlM_cons, List.foldlM_cons]
    exact (h a b List.mem_cons_self).bind_same fun a =>
      ih (fun a b hb => h a b (List.mem_cons_of_mem _ hb)) a

/-- Rounds for the items of two lists that are related one by one. -/
theorem forM {J : β → β → Prop} {f f' : β → Step σ ε PUnit}
    (h : ∀ b b', Follows c (fun s s' => R s s' ∧ J b b') (f b) (f' b') (fun _ _ => R) E B)
    (l l' : List β) :
    Follows c (fun s s' => R s s' ∧ List.Forall₂ J l l') (l.forM f) (l'.forM f')
      (fun _ _ => R) E B := by
  have hgrows (l : List β) (s : σ) : (l.forM f s).Grown c s := by
    induction l generalizing s with
    | nil => exact c.refl s
    | cons b l ih => exact ((h b b).grows s).bind fun _ => ih
  refine ⟨hgrows l, fun s s' hs => ?_⟩
  obtain ⟨hs, hl⟩ := hs
  induction hl generalizing s s' with
  | nil => exact .ok hs
  | @cons b b' l l' hb _ ih =>
    have hrest : Follows c R (l.forM f) (l'.forM f') (fun _ _ => R) E B := ⟨hgrows l, ih⟩
    exact ((h b b').bind fun _ _ => hrest).ends s s' ⟨hs, hb⟩

end Follows

end Step

end TreeScript
