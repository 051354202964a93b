import TreeScript.Proofs.Following

/-!
# What computations ensure

`Step.Ensures I x x' Q E B` is about the ends of `x` from the states where `I` holds: `Q` holds of
the value and the state where `x` returns, `E` of the error and the state where it fails, and `B` of
the state where it breaks off or waits, and of which it is. It asks nothing where `x` does not end. The
computation `x'` does the same as `x` from these states; it stands for a variant of `x` that differs only
where no run gets to.

The rules are one for each way to build a computation. `Ensures.rec_state` starts over with what is
known of a single state.
-/

namespace TreeScript

variable {σ τ ε ε' α β : Type}

/-- How a computation ends that neither returns nor fails. -/
inductive Stop where
  | crashed
  | blocked

namespace Outcome

variable {Q Q' : α → σ → Prop} {E E' : ε → σ → Prop} {B B' : Stop → σ → Prop}

/-- What holds of the end of a computation. -/
def Ensures (Q : α → σ → Prop) (E : ε → σ → Prop) (B : Stop → σ → Prop) : Outcome σ ε α → Prop
  | .ok a s => Q a s
  | .error e s => E e s
  | .crashed s => B .crashed s
  | .blocked s => B .blocked s
  | .exhausted _ => True

theorem Ensures.mono {o : Outcome σ ε α} (h : o.Ensures Q E B) (hQ : ∀ a s, Q a s → Q' a s)
    (hE : ∀ e s, E e s → E' e s) (hB : ∀ k s, B k s → B' k s) : o.Ensures Q' E' B' := by
  cases o with
  | ok a s => exact hQ a s h
  | error e s => exact hE e s h
  | crashed s | blocked s => exact hB _ s h
  | exhausted => trivial

end Outcome

namespace Step

/-- From a state where `I` holds, `x` ends as `Q`, `E` and `B` say, and `x'` does the same. -/
structure Ensures (I : σ → Prop) (x x' : Step σ ε α) (Q : α → σ → Prop) (E : ε → σ → Prop)
    (B : Stop → σ → Prop) : Prop where
  ends : ∀ s, I s → x' s = x s ∧ (x s).Ensures Q E B

namespace Ensures

variable {I I' : σ → Prop} {x x' : Step σ ε α} {Q Q' : α → σ → Prop} {E E' : ε → σ → Prop}
  {B B' : Stop → σ → Prop}

theorem mono (h : Ensures I x x' Q E B) (hI : ∀ s, I' s → I s) (hQ : ∀ a s, Q a s → Q' a s)
    (hE : ∀ e s, E e s → E' e s) (hB : ∀ k s, B k s → B' k s) : Ensures I' x x' Q' E' B' :=
  ⟨fun s hs => ⟨(h.ends s (hI s hs)).1, (h.ends s (hI s hs)).2.mono hQ hE hB⟩⟩

theorem weaken (h : Ensures I x x' Q E B) (hQ : ∀ a s, Q a s → Q' a s) : Ensures I x x' Q' E B :=
  h.mono (fun _ => id) hQ (fun _ _ => id) fun _ _ => id

theorem strengthen (h : Ensures I x x' Q E B) (hI : ∀ s, I' s → I s) : Ensures I' x x' Q E B :=
  h.mono hI (fun _ _ => id) (fun _ _ => id) fun _ _ => id

/-- What is known of the state may be used as it is. -/
theorem rec_state (h : ∀ t, I t → Ensures (· = t) x x' Q E B) : Ensures I x x' Q E B :=
  ⟨fun s hs => (h s hs).ends s rfl⟩

theorem error_of (h : Ensures I x x' Q E B) {s t : σ} {e : ε} (hs : I s) (he : x s = .error e t) :
    E e t := by
  have hx := (h.ends s hs).2
  rw [he] at hx
  exact hx

theorem pure {a : α} (h : ∀ s, I s → Q a s) : Ensures I (pure a : Step σ ε α) (pure a) Q E B :=
  ⟨fun s hs => ⟨rfl, h s hs⟩⟩

theorem fail {e : ε} (h : ∀ s, I s → E e s) : Ensures I (fail e : Step σ ε α) (fail e) Q E B :=
  ⟨fun s hs => ⟨rfl, h s hs⟩⟩

theorem crash (h : ∀ s, I s → B .crashed s) : Ensures I (crash : Step σ ε α) crash Q E B :=
  ⟨fun s hs => ⟨rfl, h s hs⟩⟩

theorem block (h : ∀ s, I s → B .blocked s) : Ensures I (block : Step σ ε α) block Q E B :=
  ⟨fun s hs => ⟨rfl, h s hs⟩⟩

theorem exhaust : Ensures I (exhaust : Step σ ε α) exhaust Q E B := ⟨fun _ _ => ⟨rfl, trivial⟩⟩

theorem bind {S : β → σ → Prop} {f f' : α → Step σ ε β} (hx : Ensures I x x' Q E B)
    (hf : ∀ a, Ensures (Q a) (f a) (f' a) S E B) : Ensures I (x >>= f) (x' >>= f') S E B := by
  refine ⟨fun s hs => ?_⟩
  obtain ⟨heq, h⟩ := hx.ends s hs
  rw [run_bind, run_bind, heq]
  cases hxs : x s <;> rw [hxs] at h
  case ok a t => exact (hf a).ends t h
  case error | crashed | blocked | exhausted => exact ⟨rfl, h⟩

theorem map {S : β → σ → Prop} {f : α → β} (hx : Ensures I x x' Q E B)
    (hS : ∀ a s, Q a s → S (f a) s) : Ensures I (f <$> x) (f <$> x') S E B := by
  rw [← bind_pure_comp, ← bind_pure_comp]
  exact hx.bind fun a => .pure (hS a)

theorem get_bind {k k' : σ → Step σ ε α} (h : ∀ t, I t → Ensures (· = t) (k t) (k' t) Q E B) :
    Ensures I (get >>= k) (get >>= k') Q E B := ⟨fun s hs => (h s hs).ends s rfl⟩

theorem gets {f : σ → α} (h : ∀ s, I s → Q (f s) s) :
    Ensures I (gets f : Step σ ε α) (gets f) Q E B := ⟨fun s hs => ⟨rfl, h s hs⟩⟩

theorem modify {f : σ → σ} {Q : Unit → σ → Prop} (h : ∀ s, I s → Q () (f s)) :
    Ensures I (modify f : Step σ ε Unit) (modify f) Q E B := ⟨fun s hs => ⟨rfl, h s hs⟩⟩

theorem ofExcept {r : Except ε α} (hQ : ∀ a, r = .ok a → ∀ s, I s → Q a s)
    (hE : ∀ e, r = .error e → ∀ s, I s → E e s) : Ensures I (ofExcept r) (ofExcept r) Q E B := by
  cases r with
  | ok a => exact .pure (hQ a rfl)
  | error e => exact .fail (hE e rfl)

theorem ofOption {r : Option α} (hQ : ∀ a, r = some a → ∀ s, I s → Q a s) :
    Ensures I (ofOption r : Step σ ε α) (ofOption r) Q E B := by
  cases r with
  | some a => exact .pure (hQ a rfl)
  | none => exact .exhaust

theorem failWith {f : σ → Option ε} (hf : ∀ s e, I s → f s = some e → E e s) :
    Ensures I (failWith f : Step σ ε α) (failWith f) Q E B := by
  refine ⟨fun s hs => ⟨rfl, ?_⟩⟩
  unfold Step.failWith
  cases he : f s with
  | some e => exact hf s e hs he
  | none => trivial

theorem mapErrorWith {E' : ε' → σ → Prop} {f : σ → ε → Option ε'} (hx : Ensures I x x' Q E B)
    (hf : ∀ e s e', E e s → f s e = some e' → E' e' s) :
    Ensures I (x.mapErrorWith f) (x'.mapErrorWith f) Q E' B := by
  refine ⟨fun s hs => ?_⟩
  obtain ⟨heq, h⟩ := hx.ends s hs
  unfold Step.mapErrorWith
  rw [heq]
  cases hxs : x s <;> rw [hxs] at h
  case error e t => exact (Ensures.failWith fun s e' hs => hf e s e' hs).ends t h
  case ok | crashed | blocked | exhausted => exact ⟨rfl, h⟩

theorem mapError {E' : ε' → σ → Prop} {f : ε → ε'} (hx : Ensures I x x' Q E B)
    (hf : ∀ e s, E e s → E' (f e) s) : Ensures I (x.mapError f) (x'.mapError f) Q E' B :=
  hx.mapErrorWith fun e s _ h he => Option.some.inj he ▸ hf e s h

/-- What holds of a failure that was taken for a value. -/
def Attempted (Q : α → σ → Prop) (E : ε → σ → Prop) : Except ε α → σ → Prop
  | .ok a => Q a
  | .error e => E e

theorem attempt {E' : ε' → σ → Prop} (hx : Ensures I x x' Q E B) :
    Ensures I (x.attempt : Step σ ε' (Except ε α)) x'.attempt (Attempted Q E) E' B := by
  refine ⟨fun s hs => ?_⟩
  obtain ⟨heq, h⟩ := hx.ends s hs
  unfold Step.attempt
  rw [heq]
  cases hxs : x s <;> rw [hxs] at h <;> exact ⟨rfl, h⟩

theorem whenCrashed {B' : Stop → σ → Prop} {tidy : σ → σ} (hx : Ensures I x x' Q E B)
    (htidy : ∀ s, B .crashed s → B' .crashed (tidy s)) (hblocked : ∀ s, B .blocked s → B' .blocked s) :
    Ensures I (x.whenCrashed tidy) (x'.whenCrashed tidy) Q E B' := by
  refine ⟨fun s hs => ?_⟩
  obtain ⟨heq, h⟩ := hx.ends s hs
  unfold Step.whenCrashed
  rw [heq]
  cases hxs : x s <;> rw [hxs] at h
  case crashed t => exact ⟨rfl, htidy t h⟩
  case blocked t => exact ⟨rfl, hblocked t h⟩
  case ok | error | exhausted => exact ⟨rfl, h⟩

/-- What tidies up starts from the end of the computation, or from its failure. -/
theorem thenAlways {tidy tidy' : Step σ ε β} (hx : Ensures I x x' Q E B)
    (hok : ∀ a, Ensures (Q a) tidy tidy' (fun _ => Q' a) E' B)
    (herror : ∀ e, Ensures (E e) tidy tidy' (fun _ => E' e) (fun _ => E' e) B) :
    Ensures I (x.thenAlways tidy) (x'.thenAlways tidy') Q' E' B := by
  refine ⟨fun s hs => ?_⟩
  obtain ⟨heq, h⟩ := hx.ends s hs
  rw [thenAlways_run, thenAlways_run, heq]
  cases hxs : x s <;> rw [hxs] at h
  case ok a t =>
    obtain ⟨heq, h⟩ := (hok a).ends t h
    dsimp only
    rw [heq]
    cases hu : tidy t <;> rw [hu] at h <;> exact ⟨rfl, h⟩
  case error e t =>
    obtain ⟨heq, h⟩ := (herror e).ends t h
    dsimp only
    rw [heq]
    cases hu : tidy t <;> rw [hu] at h <;> exact ⟨rfl, h⟩
  case crashed | blocked | exhausted => exact ⟨rfl, h⟩

/-! ## Repetition -/

/-- What holds after a round: what the result asks for, or what another round starts from. -/
def Rounded (Q : α → σ → Prop) (I : σ → Prop) : Option α → σ → Prop
  | some a => Q a
  | none => I

theorem loop {limit : Nat} {round round' : Step σ ε (Option α)}
    (h : Ensures I round round' (Rounded Q I) E B) :
    Ensures I (loop limit round) (loop limit round') Q E B := by
  induction limit with
  | zero => exact .exhaust
  | succ limit ih =>
    rw [loop_succ, loop_succ]
    refine h.bind fun r => ?_
    cases r with
    | some a => exact .pure fun _ h => h
    | none => exact ih

theorem firstOf {l : List β} {round round' : β → Step σ ε (Option α)}
    (h : ∀ b ∈ l, Ensures I (round b) (round' b) (Rounded Q I) E B) :
    Ensures I (firstOf round l) (firstOf round' l) (Rounded Q I) E B := by
  induction l with
  | nil => exact .pure fun _ h => h
  | cons b l ih =>
    rw [firstOf_cons, firstOf_cons]
    refine (h b List.mem_cons_self).bind fun r => ?_
    cases r with
    | some a => exact .pure fun _ h => h
    | none => exact ih fun c hc => h c (List.mem_cons_of_mem _ hc)

theorem mapM {l : List β} {f f' : β → Step σ ε α}
    (h : ∀ b ∈ l, Ensures I (f b) (f' b) (fun _ => I) E B) :
    Ensures I (l.mapM f) (l.mapM f') (fun _ => I) E B := by
  induction l with
  | nil => exact .pure fun _ h => h
  | cons b l ih =>
    rw [List.mapM_cons, List.mapM_cons]
    refine (h b List.mem_cons_self).bind fun a => ?_
    exact (ih fun b hb => h b (List.mem_cons_of_mem _ hb)).bind fun _ => .pure fun _ h => h

theorem foldlM {l : List β} {f f' : α → β → Step σ ε α}
    (h : ∀ a, ∀ b ∈ l, Ensures (Q a) (f a b) (f' a b) Q E B) (a : α) :
    Ensures (Q a) (l.foldlM f a) (l.foldlM f' a) Q E B := by
  induction l generalizing a with
  | nil => exact .pure fun _ h => h
  | cons b l ih =>
    rw [List.foldlM_cons, List.foldlM_cons]
    exact (h a b List.mem_cons_self).bind fun a =>
      ih (fun a b hb => h a b (List.mem_cons_of_mem _ hb)) a

/-- Rounds for the items of a list; what holds before one may depend on those that are left. -/
theorem forM {J : List β → σ → Prop} {f f' : β → Step σ ε PUnit} (l : List β)
    (h : ∀ b rest, Ensures (J (b :: rest)) (f b) (f' b) (fun _ => J rest) E B) :
    Ensures (J l) (l.forM f) (l.forM f') (fun _ => J []) E B := by
  induction l with
  | nil => exact .pure fun _ h => h
  | cons b l ih =>
    show Ensures _ (f b >>= fun _ => l.forM f) (f' b >>= fun _ => l.forM f') _ E B
    exact (h b l).bind fun _ => ih

/-! ## Parts of the state -/

theorem zoom {I : τ → Prop} {Q : α → τ → Prop} {E : ε → τ → Prop} {B : Stop → τ → Prop} {part : τ → σ}
    {replace : τ → σ → τ} {x : Step σ ε α} (hQ : ∀ a s p, I s → Q a (replace s p))
    (hE : ∀ e s p, I s → x (part s) = .error e p → E e (replace s p))
    (hcrash : ∀ s p, I s → x (part s) = .crashed p → B .crashed (replace s p))
    (hblock : ∀ s p, I s → B .blocked (replace s p)) :
    Ensures I (x.zoom part replace) (x.zoom part replace) Q E B := by
  refine ⟨fun s hs => ⟨rfl, ?_⟩⟩
  unfold Step.zoom
  cases hx : x (part s) with
  | ok a p => exact hQ a s p hs
  | error e p => exact hE e s p hs hx
  | crashed p => exact hcrash s p hs hx
  | blocked p => exact hblock s p hs
  | exhausted => trivial

theorem update {I : τ → Prop} {Q : α → τ → Prop} {E : ε → τ → Prop} {B : Stop → τ → Prop} {part : τ → σ}
    {replace : τ → σ → τ} {f : σ → Except ε (α × σ)}
    (hQ : ∀ a s p, I s → f (part s) = .ok (a, p) → Q a (replace s p))
    (hE : ∀ e s, I s → f (part s) = .error e → E e s) :
    Ensures I (update part replace f) (update part replace f) Q E B := by
  refine ⟨fun s hs => ⟨rfl, ?_⟩⟩
  unfold Step.update
  cases hf : f (part s) with
  | ok r => exact hQ r.1 s r.2 hs hf
  | error e => exact hE e s hs hf

end Ensures

end Step

end TreeScript
