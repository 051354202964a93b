import TreeScript.Eval.Visit
import TreeScript.Proofs.Following

/-!
# Runs in paired states

A `Pairing` says how the states of two runs of the evaluator are related: the scopes, the threads,
the world, the tasks and the parked jobs by relations of their own, and everything else by equality. The
relation of the scopes depends on a `View` and that of the threads on a `Line`; they change while a
computation is inside of a scope or a call that it has entered and has to leave again.

* `P.At v u s s'`: the states `s` and `s'` are paired, seen by the view `v` and the line `u`.
* `P.Follows p V F v u x x'`: under the condition `p`, from states that are paired at `v` and `u` the
  computation `x'` ends the way `x` does, in states paired at `v` and `u` again; `V` relates the
  values, and `F` the errors.
* `P.Laws engine`: what a pairing has to satisfy so that whole visits follow each other. Each law is
  about one operation that the evaluator applies to scopes, threads or the world.

The conditions `p` are propositions about values that have come up before. They are kept apart from
the relations between states because a computation grows the state whether they hold or not.
-/

namespace TreeScript

/-- Tasks are only added, and native routines that were entered stay so. -/
structure State.Grows (s t : State) : Prop where
  tasks : s.tasks.size ≤ t.tasks.size
  entered : s.world.entered.toList <+: t.world.entered.toList

namespace State.Grows

theorem refl (s : State) : s.Grows s := ⟨Nat.le_refl _, List.prefix_refl _⟩

theorem trans {s t u : State} (h : s.Grows t) (h' : t.Grows u) : s.Grows u :=
  ⟨Nat.le_trans h.tasks h'.tasks, h.entered.trans h'.entered⟩

end State.Grows

/-- Two functions that differ in nothing that a call reads, apart from being asynchronous. -/
structure ScriptFunction.Resembles (f f' : ScriptFunction) : Prop where
  id : f'.id = f.id
  qualifiedName : f'.qualifiedName = f.qualifiedName
  parameters : f'.parameters = f.parameters
  returns : f'.returns = f.returns
  depth : f'.depth = f.depth
  body : f'.body = f.body
  markers : f'.declaration.descendants.map (·.id) = f.declaration.descendants.map (·.id)

theorem ScriptFunction.Resembles.refl (f : ScriptFunction) : f.Resembles f :=
  ⟨rfl, rfl, rfl, rfl, rfl, rfl, rfl⟩

theorem World.heap_eq_of_eq_and {p : Prop} {w w' : World} (h : w' = w ∧ p) : w'.heap = w.heap := by
  rw [h.1]

/-- How the states of two runs are related. -/
structure Pairing where
  View : Type
  Line : Type
  scopes : View → ScopeTree → ScopeTree → Prop
  /-- Relates threads, given the functions that other threads are preparing. -/
  threads : Line → List Nat → Thread → Thread → Prop
  world : World → World → Prop
  heap : ∀ {w w'}, world w w' → w'.heap = w.heap
  tasks : Array Task → Array Task → Prop
  jobs : Job → Job → Prop
  /-- The ids of the functions that may have been prepared. -/
  signable : Nat → Prop
  functions : ScriptFunction → ScriptFunction → Prop
  errors : Error → Error → Prop
  /-- Relates the texts of signatures. -/
  texts : String → String → Prop
  /-- The nodes that may be visited in a scope. -/
  allowed : View → ScopeId → Node → Prop
  /-- The lines on which nodes may be visited. -/
  ready : Line → Prop
  astray : State → Prop
  astray_mono : ∀ {s t : State}, s.Grows t → astray s → astray t

namespace Pairing

variable {P : Pairing}

/-- Functions that can have been prepared, so that their bodies may run. -/
def callees (P : Pairing) (f f' : ScriptFunction) : Prop := P.functions f f' ∧ P.signable f.id

/-- The terms of the comparison. -/
def terms (P : Pairing) : Terms State :=
  ⟨State.Grows, .refl, .trans, P.astray, P.astray_mono⟩

/-- The terms of the comparison for what works on the world alone. -/
def worldTerms (P : Pairing) : Terms World where
  grows w w' := w.entered.toList <+: w'.entered.toList
  refl _ := List.prefix_refl _
  trans h h' := h.trans h'
  astray w := ∀ s : State, P.astray { s with world := w }
  astray_mono {w _} h ha s :=
    P.astray_mono (s := { s with world := w }) ⟨Nat.le_refl _, h⟩ (ha s)

/-! ## Paired states -/

/-- Two states that are paired, but for their threads, which are related by `T`. -/
inductive Near (P : Pairing) (v : P.View) (T : List Nat → Thread → Thread → Prop) (s : State) :
    State → Prop
  | intro {scopes' : ScopeTree} {thread' : Thread} {world' : World} {tasks' : Array Task}
      {parked' : List Job} (scopes : P.scopes v s.scopes scopes')
      (threads : T s.held s.thread thread') (world : P.world s.world world')
      (tasks : P.tasks s.tasks tasks') (parked : List.Forall₂ P.jobs s.parked parked')
      (signed : ∀ id, (s.signatures.find? id).isSome → P.signable id) :
      Near P v T s { s with
        scopes := scopes'
        thread := thread'
        world := world'
        tasks := tasks'
        parked := parked' }

/-- Two states that are paired. -/
abbrev At (P : Pairing) (v : P.View) (u : P.Line) : State → State → Prop := P.Near v (P.threads u)

/-- Two states that are paired in some way. -/
def Apart (P : Pairing) (s s' : State) : Prop := ∃ v u, P.At v u s s'

namespace Near

variable {v w : P.View} {T T' : List Nat → Thread → Thread → Prop} {s s' : State}

theorem withScopes (h : P.Near v T s s') {t t' : ScopeTree} (ht : P.scopes w t t') :
    P.Near w T { s with scopes := t } { s' with scopes := t' } := by
  obtain ⟨_, hthreads, hworld, htasks, hparked, hsigned⟩ := h
  exact ⟨ht, hthreads, hworld, htasks, hparked, hsigned⟩

theorem withThread (h : P.Near v T s s') {r r' : Thread} (hr : T' s.held r r') :
    P.Near v T' { s with thread := r } { s' with thread := r' } := by
  obtain ⟨hscopes, _, hworld, htasks, hparked, hsigned⟩ := h
  exact ⟨hscopes, hr, hworld, htasks, hparked, hsigned⟩

theorem withWorld (h : P.Near v T s s') {w w' : World} (hw : P.world w w') :
    P.Near v T { s with world := w } { s' with world := w' } := by
  obtain ⟨hscopes, hthreads, _, htasks, hparked, hsigned⟩ := h
  exact ⟨hscopes, hthreads, hw, htasks, hparked, hsigned⟩

theorem scopes (h : P.Near v T s s') : P.scopes v s.scopes s'.scopes := by
  obtain ⟨h, -⟩ := h
  exact h

theorem threads (h : P.Near v T s s') : T s.held s.thread s'.thread := by
  obtain ⟨-, h⟩ := h
  exact h

theorem world (h : P.Near v T s s') : P.world s.world s'.world := by
  obtain ⟨-, -, h⟩ := h
  exact h

theorem tasks (h : P.Near v T s s') : P.tasks s.tasks s'.tasks := by
  obtain ⟨-, -, -, h⟩ := h
  exact h

theorem parked (h : P.Near v T s s') : List.Forall₂ P.jobs s.parked s'.parked := by
  obtain ⟨-, -, -, -, h⟩ := h
  exact h

theorem signed (h : P.Near v T s s') :
    ∀ id, (s.signatures.find? id).isSome → P.signable id := by
  obtain ⟨-, -, -, -, -, h⟩ := h
  exact h

theorem heap (h : P.Near v T s s') : s'.heap = s.heap := P.heap h.world

theorem functionSignature (h : P.Near v T s s') (f : ScriptFunction) :
    s'.functionSignature? f = s.functionSignature? f := by
  have hheap := h.heap
  unfold State.functionSignature?
  rw [hheap]
  obtain ⟨⟩ := h
  rfl

theorem callableSignature (h : P.Near v T s s') (c : Callable) :
    s'.callableSignature? c = s.callableSignature? c := by
  unfold State.callableSignature?
  rw [funext h.functionSignature]

theorem apart {u : P.Line} (h : P.At v u s s') : P.Apart s s' := ⟨v, u, h⟩

end Near

/-! ## Computations -/

/-- Under the condition `p`, from paired states `x'` ends the way `x` does. -/
def Follows (P : Pairing) {α : Type} (p : Prop) (V : α → α → Prop) (F : Error → Error → Prop)
    (v : P.View) (u : P.Line) (x x' : Eval α) : Prop :=
  Step.Follows P.terms (fun s s' => p ∧ P.At v u s s') x x'
    (fun a a' s s' => V a a' ∧ P.At v u s s') (fun e e' s s' => F e e' ∧ P.At v u s s') P.Apart

namespace Follows

variable {α β : Type} {p q : Prop} {V V' : α → α → Prop} {W : β → β → Prop}
  {F F' : Error → Error → Prop} {v : P.View} {u : P.Line} {x x' : Eval α}

theorem given (h : P.Follows q V F v u x x') (hp : p → q) : P.Follows p V F v u x x' :=
  h.strengthen fun _ _ hs => ⟨hp hs.1, hs.2⟩

/-- A comparison that is made only where the condition holds. -/
theorem assuming {y : Eval α} (hgrows : P.Follows False V' F v u x y)
    (h : p → P.Follows p V F v u x x') : P.Follows p V F v u x x' :=
  ⟨hgrows.grows, fun s s' hs => (h hs.1).ends s s' hs⟩

theorem weaken (h : P.Follows p V F v u x x') (hV : ∀ a a', V a a' → V' a a') :
    P.Follows p V' F v u x x' := Step.Follows.weaken h fun a a' _ _ hs => ⟨hV a a' hs.1, hs.2⟩

/-- Equal errors are related ones. -/
theorem loosen (h : P.Follows p V Eq v u x x') (hF : ∀ e, F e e) : P.Follows p V F v u x x' :=
  h.mono (fun _ _ => id) (fun _ _ _ _ => id) (fun e _ _ _ hs => ⟨hs.1 ▸ hF e, hs.2⟩) fun _ _ => id

/-- The condition still holds at the end. -/
theorem carry (h : P.Follows p V F v u x x') :
    Step.Follows P.terms (fun s s' => p ∧ P.At v u s s') x x'
      (fun a a' s s' => V a a' ∧ p ∧ P.At v u s s') (fun e e' s s' => F e e' ∧ P.At v u s s')
      P.Apart :=
  ⟨h.grows, fun s s' hs => (h.ends s s' hs).mono (fun _ _ _ _ ha => ⟨ha.1, hs.1, ha.2⟩)
    (fun _ _ _ _ => id) fun _ _ => id⟩

theorem carry_error (h : P.Follows p V F v u x x') :
    Step.Follows P.terms (fun s s' => p ∧ P.At v u s s') x x'
      (fun a a' s s' => V a a' ∧ P.At v u s s') (fun e e' s s' => F e e' ∧ p ∧ P.At v u s s')
      P.Apart :=
  ⟨h.grows, fun s s' hs => (h.ends s s' hs).mono (fun _ _ _ _ => id)
    (fun _ _ _ _ he => ⟨he.1, hs.1, he.2⟩) fun _ _ => id⟩

/-- The condition goes into the relation of the values. -/
theorem keep (h : P.Follows p V F v u x x') :
    P.Follows p (fun a a' => V a a' ∧ p) F v u x x' :=
  h.carry.weaken fun _ _ _ _ hs => ⟨⟨hs.1, hs.2.1⟩, hs.2.2⟩

theorem pure (a : α) : P.Follows p Eq F v u (pure a) (pure a) :=
  Step.Follows.pure fun _ _ h => ⟨rfl, h.2⟩

theorem value {a a' : α} (h : p → V a a') :
    P.Follows p V F v u (Pure.pure a : Eval α) (Pure.pure a') :=
  Step.Follows.pure fun _ _ hs => ⟨h hs.1, hs.2⟩

theorem fail {e e' : Error} (h : p → F e e') :
    P.Follows p V F v u (Step.fail e) (Step.fail e') :=
  Step.Follows.fail fun _ _ hs => ⟨h hs.1, hs.2⟩

theorem crash : P.Follows p V F v u (Step.crash : Eval α) Step.crash :=
  Step.Follows.crash fun _ _ h => h.2.apart

theorem block : P.Follows p V F v u (Step.block : Eval α) Step.block :=
  Step.Follows.block fun _ _ h => h.2.apart

theorem ofExcept {r r' : Except Error α} (h : p → Results V F r r') :
    P.Follows p V F v u (Step.ofExcept r) (Step.ofExcept r') := by
  refine ⟨fun s => ?_, fun s s' hs => ?_⟩
  · cases r <;> exact P.terms.refl s
  · exact (Step.Follows.ofExcept (R := P.At v u) (h hs.1) (fun _ _ hV _ _ ha => ⟨hV, ha⟩)
      fun _ _ hF _ _ ha => ⟨hF, ha⟩).ends s s' hs.2

theorem ofExcept_same (hF : ∀ e, F e e) (r : Except Error α) :
    P.Follows p Eq F v u (Step.ofExcept r) (Step.ofExcept r) :=
  ofExcept fun _ => .refl (fun _ => rfl) hF r

theorem ofOption (r : Option α) : P.Follows p Eq F v u (Step.ofOption r) (Step.ofOption r) :=
  Step.Follows.ofOption (fun _ _ _ h => ⟨rfl, h.2⟩) fun _ _ h => h.2.apart

theorem bind {f f' : α → Eval β} (hx : P.Follows p V F v u x x')
    (hf : ∀ a a', P.Follows (p ∧ V a a') W F v u (f a) (f' a')) :
    P.Follows p W F v u (x >>= f) (x' >>= f') :=
  Step.Follows.bind hx.carry fun a a' => (hf a a').strengthen fun _ _ h => ⟨⟨h.2.1, h.1⟩, h.2.2⟩

/-- Where the values are equal, it is enough to go on with one of them. -/
theorem bind_same {f f' : α → Eval β} (hx : P.Follows p Eq F v u x x')
    (hf : ∀ a, P.Follows p W F v u (f a) (f' a)) : P.Follows p W F v u (x >>= f) (x' >>= f') :=
  Step.Follows.bind_same (K := fun _ s s' => p ∧ P.At v u s s') hx.carry hf

theorem bind_having {H : α → Prop} {f f' : α → Eval β}
    (hx : P.Follows p (fun a a' => a = a' ∧ H a) F v u x x')
    (hf : ∀ a, P.Follows (p ∧ H a) W F v u (f a) (f' a)) :
    P.Follows p W F v u (x >>= f) (x' >>= f') :=
  Step.Follows.bind_same (K := fun a s s' => (p ∧ H a) ∧ P.At v u s s')
    (hx.carry.weaken fun _ _ _ _ hs => ⟨hs.1.1, ⟨hs.2.1, hs.1.2⟩, hs.2.2⟩) hf

/-- A result that is there from the start. -/
theorem bind_ofExcept {r : Except Error α} {f f' : α → Eval β} (hF : ∀ e, F e e)
    (hf : ∀ a, r = .ok a → P.Follows p W F v u (f a) (f' a)) :
    P.Follows p W F v u (Step.ofExcept r >>= f) (Step.ofExcept r >>= f') := by
  cases r with
  | ok a => exact hf a rfl
  | error e => exact fail fun _ => hF e

theorem map {f : α → β} (hx : P.Follows p V F v u x x') (hf : ∀ a a', V a a' → W (f a) (f a')) :
    P.Follows p W F v u (f <$> x) (f <$> x') :=
  Step.Follows.map hx fun a a' _ _ h => ⟨hf a a' h.1, h.2⟩

theorem map_same (f : α → β) (hx : P.Follows p Eq F v u x x') :
    P.Follows p Eq F v u (f <$> x) (f <$> x') := hx.map fun _ _ h => congrArg f h

/-- Both runs go on with their states, of which `I` holds; nothing has changed since. -/
theorem get_at {I : State → State → Prop} {k k' : State → Eval α} (hrefl : ∀ s, I s s)
    (hI : ∀ s s', P.At v u s s' → I s s')
    (h : ∀ t t', I t t' →
      Step.Follows P.terms (fun s s' => (s = t ∧ s' = t') ∧ p ∧ P.At v u t t') (k t) (k' t')
        (fun a a' s s' => V a a' ∧ P.At v u s s') (fun e e' s s' => F e e' ∧ P.At v u s s')
        P.Apart) :
    P.Follows p V F v u (Step.get >>= k) (Step.get >>= k') :=
  ⟨fun s => (h s s (hrefl s)).grows s, fun s s' hs =>
    (h s s' (hI s s' hs.2)).ends s s' ⟨⟨rfl, rfl⟩, hs⟩⟩

theorem gets {f f' : State → α} (h : ∀ s s', p → P.At v u s s' → V (f s) (f' s')) :
    P.Follows p V F v u (Step.gets f) (Step.gets f') :=
  Step.Follows.gets fun s s' hs => ⟨h s s' hs.1 hs.2, hs.2⟩

theorem modify {f f' : State → State} (hgrows : ∀ s : State, s.Grows (f s))
    (h : ∀ s s', p → P.At v u s s' → P.At v u (f s) (f' s')) :
    P.Follows p Eq F v u (Step.modify f) (Step.modify f') :=
  Step.Follows.modify hgrows fun s s' hs => ⟨rfl, h s s' hs.1 hs.2⟩

/-- Both runs fail, with an eye on their states. -/
theorem failWith {f f' : State → Option Error}
    (hf : ∀ s s', p → P.At v u s s' → Option.Rel F (f s) (f' s')) :
    P.Follows p V F v u (Step.failWith f) (Step.failWith f') :=
  Step.Follows.failWith (fun s s' hs => rel_mono (hf s s' hs.1 hs.2) fun _ _ h => ⟨h, hs.2⟩)
    fun _ _ h _ => h.2.apart

theorem mapErrorWith {f f' : State → Error → Option Error} (hx : P.Follows p V F v u x x')
    (hf : ∀ e e' s s', p → F e e' → P.At v u s s' → Option.Rel F' (f s e) (f' s' e')) :
    P.Follows p V F' v u (x.mapErrorWith f) (x'.mapErrorWith f') :=
  Step.Follows.mapErrorWith hx.carry_error (fun e e' s s' h =>
    rel_mono (hf e e' s s' h.2.1 h.1 h.2.2) fun _ _ he => ⟨he, h.2.2⟩) fun _ _ _ _ h _ => h.2.2.apart

theorem mapError {f : Error → Error} (hx : P.Follows p V F v u x x')
    (hf : ∀ e e', F e e' → F' (f e) (f e')) : P.Follows p V F' v u (x.mapError f) (x'.mapError f) :=
  hx.mapErrorWith fun e e' _ _ _ h _ => .some (hf e e' h)

theorem attempt (hx : P.Follows p V F v u x x') :
    P.Follows p (Results V F) F' v u (x.attempt : Eval (Except Error α)) x'.attempt :=
  Step.Follows.weaken (Step.Follows.attempt hx) fun r r' s s' h => by
    cases r <;> cases r'
    case error.error => exact ⟨.error h.1, h.2⟩
    case error.ok => exact h.elim
    case ok.error => exact h.elim
    case ok.ok => exact ⟨.ok h.1, h.2⟩

theorem attempt_same (hx : P.Follows p Eq Eq v u x x') :
    P.Follows p Eq F v u (x.attempt : Eval (Except Error α)) x'.attempt :=
  (attempt hx).weaken fun _ _ h => by
    cases h with
    | ok h | error h => rw [h]

theorem thenAlways {tidy tidy' : Eval β} (hx : P.Follows p V F v u x x')
    (ht : P.Follows p W F v u tidy tidy') :
    P.Follows p V F v u (x.thenAlways tidy) (x'.thenAlways tidy') := by
  have hboth : Step.Follows P.terms (fun s s' => p ∧ P.At v u s s') x x'
      (fun a a' s s' => V a a' ∧ p ∧ P.At v u s s') (fun e e' s s' => F e e' ∧ p ∧ P.At v u s s')
      P.Apart :=
    ⟨hx.grows, fun s s' hs => (hx.ends s s' hs).mono (fun _ _ _ _ ha => ⟨ha.1, hs.1, ha.2⟩)
      (fun _ _ _ _ he => ⟨he.1, hs.1, he.2⟩) fun _ _ => id⟩
  refine Step.Follows.thenAlways ht.grows hboth (fun a a' => ?_) fun e e' => ?_
  · exact ⟨ht.grows, fun s s' hs => (ht.ends s s' hs.2).mono (fun _ _ _ _ h => ⟨hs.1, h.2⟩)
      (fun _ _ _ _ => id) fun _ _ => id⟩
  · exact ⟨ht.grows, fun s s' hs => (ht.ends s s' hs.2).mono (fun _ _ _ _ h => ⟨hs.1, h.2⟩)
      (fun _ _ _ _ h => ⟨hs.1, h.2⟩) fun _ _ => id⟩

theorem mapM {l : List β} {f f' : β → Eval α}
    (h : ∀ b ∈ l, P.Follows p Eq F v u (f b) (f' b)) :
    P.Follows p Eq F v u (l.mapM f) (l.mapM f') :=
  (Step.Follows.mapM fun b hb => (h b hb).carry).weaken fun _ _ _ _ h => ⟨h.1, h.2.2⟩

theorem forM {l : List β} {f f' : β → Eval PUnit}
    (h : ∀ b ∈ l, P.Follows p Eq F v u (f b) (f' b)) :
    P.Follows p Eq F v u (l.forM f) (l.forM f') := by
  induction l with
  | nil => exact pure _
  | cons b l ih =>
    exact bind_same (h b List.mem_cons_self) fun _ =>
      ih fun b hb => h b (List.mem_cons_of_mem _ hb)

/-- What is put together has the property `H` at every step. -/
theorem foldlM {H : α → Prop} {l : List β} {f f' : α → β → Eval α}
    (h : ∀ a, ∀ b ∈ l, P.Follows (p ∧ H a) (fun a a' => a = a' ∧ H a) F v u (f a b) (f' a b)) (a : α) :
    P.Follows (p ∧ H a) (fun a a' => a = a' ∧ H a) F v u (l.foldlM f a) (l.foldlM f' a) := by
  have hfold := Step.Follows.foldlM (K := fun a s s' => (p ∧ H a) ∧ P.At v u s s')
    (fun a b hb => (h a b hb).carry.weaken fun _ _ _ _ h => ⟨h.1.1, ⟨h.2.1.1, h.1.2⟩, h.2.2⟩) a
  exact hfold.weaken fun _ _ _ _ h => ⟨⟨h.1, h.2.1.2⟩, h.2.2⟩

/-- The condition holds before and after each round. -/
theorem rounded {round round' : Eval (Option α)} (h : P.Follows p Eq F v u round round') :
    Step.Follows P.terms (fun s s' => p ∧ P.At v u s s') round round'
      (Step.Follows.Same (Step.Alike.Rounded (fun _ s s' => p ∧ P.At v u s s')
        fun s s' => p ∧ P.At v u s s'))
      (fun e e' s s' => F e e' ∧ P.At v u s s') P.Apart :=
  h.carry.weaken fun r _ _ _ h => ⟨h.1, by cases r <;> exact h.2⟩

theorem loop {limit : Nat} {round round' : Eval (Option α)} (h : P.Follows p Eq F v u round round') :
    P.Follows p Eq F v u (Step.loop limit round) (Step.loop limit round') :=
  (h.rounded.loop fun _ _ h => h.2.apart).weaken fun _ _ _ _ h => ⟨h.1, h.2.2⟩

theorem firstOf {l : List β} {round round' : β → Eval (Option α)}
    (h : ∀ b, P.Follows p Eq F v u (round b) (round' b)) :
    P.Follows p Eq F v u (Step.firstOf round l) (Step.firstOf round' l) := by
  refine (Step.Follows.firstOf fun b => (h b).rounded).weaken fun r _ _ _ h => ⟨h.1, ?_⟩
  cases r <;> exact h.2.2

/-! ## Scopes -/

/-- A result that depends on the state. -/
theorem asks {r r' : State → Except Error α}
    (h : ∀ s s', p → P.At v u s s' → Results V F (r s) (r' s')) :
    P.Follows p V F v u (fun s => Step.ofExcept (r s) s) fun s => Step.ofExcept (r' s) s := by
  refine ⟨fun s => ?_, fun s s' hs => ?_⟩
  · cases r s <;> exact P.terms.refl s
  · have hresults := h s s' hs.1 hs.2
    generalize r s = o at hresults
    generalize r' s' = o' at hresults
    cases hresults with
    | ok h => exact .ok ⟨h, hs.2⟩
    | error h => exact .error ⟨h, hs.2⟩

theorem askScopes {f : ScopeTree → Except Error α} (hF : ∀ e, F e e)
    (hf : p → ∀ t t', P.scopes v t t' → f t' = f t) :
    P.Follows p Eq F v u (Eval.askScopes f) (Eval.askScopes f) :=
  asks fun _ _ hp hs => hf hp _ _ hs.scopes ▸ .refl (fun _ => rfl) hF _

theorem changeScopes_eq (f : ScopeTree → Except Error ScopeTree) (s : State) :
    Eval.changeScopes f s = match f s.scopes with
      | .ok t => .ok () { s with scopes := t }
      | .error e => .error e s := by
  unfold Eval.changeScopes Eval.updateScopes Step.update
  dsimp only
  cases f s.scopes <;> rfl

theorem changeScopes {f f' : ScopeTree → Except Error ScopeTree} (hF : ∀ e, F e e)
    (hf : p → ∀ t t', P.scopes v t t' → Results (P.scopes v) Eq (f t) (f' t')) :
    P.Follows p Eq F v u (Eval.changeScopes f) (Eval.changeScopes f') := by
  refine ⟨fun s => ?_, fun s s' hs => ?_⟩
  · rw [changeScopes_eq]
    cases f s.scopes <;> exact ⟨Nat.le_refl _, List.prefix_refl _⟩
  · rw [changeScopes_eq, changeScopes_eq]
    have h := hf hs.1 _ _ hs.2.scopes
    generalize f s.scopes = r at h
    generalize f' s'.scopes = r' at h
    cases h with
    | ok h => exact .ok ⟨rfl, hs.2.withScopes h⟩
    | error h => exact .error ⟨h ▸ hF _, hs.2⟩

end Follows

end Pairing

end TreeScript
