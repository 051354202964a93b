import TreeScript.Proofs.Native
import TreeScript.Proofs.Pairing.Basic

/-!
# Laws of pairings

What a pairing has to satisfy so that the two runs do the same, one law for each operation that the
evaluator applies to a part of the state. A scope or a call that is entered is left again, so the
laws about entering say how leaving gets back to the view or the line from before.

From the laws follow the rules for computations inside of a new scope (`Follows.inNewScope`), under
a call id (`Follows.underCallId`), while a function is being prepared (`Follows.whilePreparing`) and
in the frame of a call (`Follows.inFrame`).
-/

namespace TreeScript

namespace Pairing

variable {P : Pairing} {engine : Engine}

/-- What a name of a call can stand for on the two sides. -/
inductive Bound (P : Pairing) (engine : Engine) : Callable → Callable → Prop
  | script {f f' : ScriptFunction} (h : P.functions f f') : Bound P engine (.script f) (.script f')
  | native {n : Native} {name : String} (h : n ∈ engine.natives name) :
      Bound P engine (.native n) (.native n)

/-- Nodes that may be visited in a scope may be visited in the scope `inner` below it, and so may
the bodies of functions. -/
structure Inner (P : Pairing) (v : P.View) (scope : ScopeId) (w : P.View) (inner : ScopeId) :
    Prop where
  allowed : ∀ n, P.allowed v scope n → P.allowed w inner n
  body : ∀ f f', P.functions f f' → P.allowed w inner f.body

/-- The scope `inner` was made below another one; releasing it leads back to the view `v`. -/
structure Entered (P : Pairing) (v : P.View) (scope inner : ScopeId) (w : P.View)
    (t t' : ScopeTree) : Prop where
  scopes : P.scopes w t t'
  nodes : P.Inner v scope w inner
  release : ∀ x x', P.scopes w x x' →
    (∃ r y y', x.release inner = .ok (r, y) ∧ x'.release inner = .ok (r, y') ∧ P.scopes v y y') ∨
      ∃ e, x.release inner = .error e ∧ x'.release inner = .error e ∧ P.scopes v x x'

structure ScopeLaws (P : Pairing) : Prop where
  depth : ∀ {v t t'}, P.scopes v t t' → ∀ id,
    (t'.get id).map (·.depth) = (t.get id).map (·.depth)
  findVariable : ∀ {v t t'}, P.scopes v t t' → ∀ id name,
    t'.findVariable id name false = t.findVariable id name false
  callable : ∀ {v t t'}, P.scopes v t t' → ∀ id name,
    (t.callable? id name false = none ∧ t'.callable? id name false = none) ∨
      ∃ f f', t.callable? id name false = some (.script f) ∧
        t'.callable? id name false = some (.script f') ∧ P.functions f f'
  skipsRest : ∀ {v t t' id n}, P.scopes v t t' → P.allowed v id n → ∀ jumped,
    t'.skipsRest id n jumped = t.skipsRest id n jumped
  defineVariable : ∀ {v t t'}, P.scopes v t t' → ∀ id {x : Variable}, x.Admitted →
    Results (P.scopes v) Eq (t.defineVariable id x) (t'.defineVariable id x)
  assignVariable : ∀ {v t t'}, P.scopes v t t' → ∀ id name value,
    Results (P.scopes v) Eq (t.assignVariable id name value) (t'.assignVariable id name value)
  defineFunction : ∀ {v t t'}, P.scopes v t t' → ∀ id {f}, P.functions f f →
    Results (P.scopes v) Eq (t.defineFunction id f) (t'.defineFunction id f)
  defineImplementation : ∀ {v t t'}, P.scopes v t t' → ∀ id {i : Implementation},
    (∀ name f, i.functions.find? name = some f → P.functions f f) →
    Results (P.scopes v) Eq (t.defineImplementation id i) (t'.defineImplementation id i)
  clearExecuted : ∀ {v t t'}, P.scopes v t t' → ∀ id {n n' : Node},
    n'.descendants.map (·.id) = n.descendants.map (·.id) →
    Results (P.scopes v) Eq (t.clearExecuted id n) (t'.clearExecuted id n')
  markExecuted : ∀ {v t t'}, P.scopes v t t' → ∀ id node,
    Results (P.scopes v) Eq (t.markExecuted id node) (t'.markExecuted id node)
  create : ∀ {v t t'}, P.scopes v t t' → ∀ scope,
    Results (fun r r' => r.1 = r'.1 ∧ ∃ w, P.Entered v scope r.1 w r.2 r'.2) Eq (t.create scope)
      (t'.create scope)

/-- Both sides have a scope of one depth, or both have none. -/
theorem ScopeLaws.get (hl : P.ScopeLaws) {v : P.View} {t t' : ScopeTree} (h : P.scopes v t t')
    (id : ScopeId) : Results (fun s s' => s'.depth = s.depth) Eq (t.get id) (t'.get id) := by
  have hdepth := hl.depth h id
  generalize t.get id = r at hdepth
  generalize t'.get id = r' at hdepth
  cases r with
  | error e =>
    cases r' <;> cases hdepth
    exact .error rfl
  | ok s =>
    cases r' with
    | error e => cases hdepth
    | ok s' => exact .ok (Except.ok.inj hdepth)

/-- Both threads can leave their innermost calls, and are then on the line `u`. -/
def Popped (P : Pairing) (u : P.Line) (held : List Nat) (r r' : Thread) : Prop :=
  ∃ f f' q q', r.pop = .ok (f, q) ∧ r'.pop = .ok (f', q') ∧ P.threads u held q q'

structure ThreadLaws (P : Pairing) : Prop where
  preparing : ∀ {u held r r'}, P.threads u held r r' → r'.preparing = r.preparing
  implementation : ∀ {u held r r'}, P.threads u held r r' → P.ready u →
    r'.implementation = r.implementation
  callId : ∀ {u held r r'}, P.threads u held r r' → ∀ name, ∃ w, (P.ready u → P.ready w) ∧
    P.threads w held { r with callId := some (.generated r.depth name) }
      { r' with callId := some (.generated r'.depth name) } ∧
    ∀ held q q', P.threads w held q q' →
      P.threads u held { q with callId := r.callId } { q' with callId := r'.callId }
  callIdBack : ∀ {u held r r' w held' q q'}, P.threads u held r r' → P.threads w held' q q' →
    ∃ u', P.threads u' held' { q with callId := r.callId } { q' with callId := r'.callId }
  prepare : ∀ {u held r r' id}, P.threads u held r r' → id ∉ r.preparing → id ∉ held →
    P.signable id ∧ ∃ w, (P.ready u → P.ready w) ∧
      P.threads w held { r with preparing := id :: r.preparing }
        { r' with preparing := id :: r'.preparing } ∧
      ∀ held q q', P.threads w held q q' → P.threads u held
        { q with preparing := q.preparing.erase id } { q' with preparing := q'.preparing.erase id }
  prepareBack : ∀ {w held q q' id}, P.threads w held q q' → P.signable id → ∃ u', P.threads u' held
    { q with preparing := q.preparing.erase id } { q' with preparing := q'.preparing.erase id }
  frame : ∀ {u held r r' f f'}, P.threads u held r r' → P.callees f f' → ∀ arguments scope,
    ∃ w, P.ready w ∧
      P.threads w held (r.push ⟨f, arguments, scope, none⟩) (r'.push ⟨f', arguments, scope, none⟩) ∧
      ∀ held q q', P.threads w held q q' → P.Popped u held q q' ∧
        ∀ value, P.Popped u held (q.setResult value) (q'.setResult value)
  frameBack : ∀ {w held q q'}, P.threads w held q q' → ∃ u', P.threads u' held q.drop q'.drop
  task : ∀ {u held r r'}, P.threads u held r r' → ∀ id, ∃ w,
    P.threads w (r.preparing ++ held) { Thread.fresh with callId := id }
      { Thread.fresh with callId := id }

/-- From related worlds, a computation on the second ends the way one on the first does. -/
abbrev OnWorlds (P : Pairing) {ε α : Type} (x x' : Step World ε α) : Prop :=
  Step.Follows P.worldTerms P.world x x' (fun a a' w w' => a = a' ∧ P.world w w')
    (fun e e' w w' => e = e' ∧ P.world w w') P.world

structure WorldLaws (P : Pairing) (engine : Engine) : Prop where
  native : ∀ {u held r r' name n}, n ∈ engine.natives name → P.threads u held r r' →
    ∀ receiver arguments, P.OnWorlds (n.invoke r receiver arguments) (n.invoke r' receiver arguments)
  assignField : ∀ {w w' ref name value h}, P.world w w' →
    w.heap.assignField ref name value = .ok (some h) →
    P.world { w with heap := h } { w' with heap := h }
  extend : ∀ {w w' h}, P.world w w' → w.heap.Extends h →
    P.world { w with heap := h } { w' with heap := h }
  gates : ∀ {w w'}, P.world w w' → w'.gates = w.gates

structure FunctionLaws (P : Pairing) : Prop where
  resembles : ∀ {f f'}, P.functions f f' → f.Resembles f'
  sync : ∀ {f f'}, P.callees f f' → f.isAsync = false → f'.isAsync = false
  made : ∀ {id v scope n implementation depth f}, P.allowed v scope n →
    ScriptFunction.ofNode id n implementation depth = .ok f → P.functions f f
  child : ∀ {v scope n m}, P.allowed v scope n → m ∈ n.children → P.allowed v scope m
  default : ∀ {v scope n f f' parameter m}, P.allowed v scope n → P.functions f f' →
    parameter ∈ f.parameters → parameter.default = some m → P.allowed v scope m

structure ErrorLaws (P : Pairing) : Prop where
  refl : ∀ e, P.errors e e
  located : ∀ {e e'}, P.errors e e' → ∀ span, P.errors (e.located span) (e'.located span)
  inside : ∀ {e e' text text'}, P.errors e e' → P.texts text text' → ∀ name,
    P.errors (e.inside name text) (e'.inside name text')
  within : ∀ {e : Error} {text text'}, P.texts text text' → ∀ name,
    P.errors (e.within name text) (e.within name text')
  text : ∀ {f f'}, P.functions f f' → ∀ s : State,
    Option.Rel P.texts (s.functionSignature? f) (s.functionSignature? f')

/-- What a pairing has to satisfy. -/
structure Laws (P : Pairing) (engine : Engine) : Prop extends ScopeLaws P, ThreadLaws P,
    WorldLaws P engine, FunctionLaws P, ErrorLaws P

/-! ## Entering and leaving -/

namespace Follows

variable {α : Type} {p : Prop} {V : α → α → Prop} {F : Error → Error → Prop} {v : P.View}
  {u : P.Line}

theorem grown_changeThread (f : Thread → Thread) (s : State) :
    (Eval.changeThread f s).Grown P.terms s := ⟨Nat.le_refl _, List.prefix_refl _⟩

theorem grown_onBreak {x : Eval α} {f : Thread → Thread} {s : State} (hx : (x s).Grown P.terms s) :
    (Eval.onBreak x f s).Grown P.terms s := by
  unfold Eval.onBreak Step.whenCrashed
  cases hxs : x s <;> rw [hxs] at hx
  case crashed =>
    obtain ⟨htasks, hentered⟩ := hx
    exact ⟨htasks, hentered⟩
  case ok | error | blocked | exhausted => exact hx

theorem grown_guarded {x : Eval α} {f : Thread → Thread} {s : State} (hx : (x s).Grown P.terms s) :
    (Eval.guarded x f s).Grown P.terms s := (grown_onBreak hx).thenAlways (grown_changeThread f)

theorem updateScopes_eq (f : ScopeTree → Except Error (α × ScopeTree)) (s : State) :
    Eval.updateScopes f s = match f s.scopes with
      | .ok (a, t) => .ok a { s with scopes := t }
      | .error e => .error e s := by
  unfold Eval.updateScopes Step.update
  dsimp only
  cases f s.scopes <;> rfl

theorem grown_updateScopes (f : ScopeTree → Except Error (α × ScopeTree)) (s : State) :
    (Eval.updateScopes f s).Grown P.terms s := by
  rw [updateScopes_eq]
  cases f s.scopes <;> exact ⟨Nat.le_refl _, List.prefix_refl _⟩

/-- Leaving a scope that was entered. -/
theorem leave {K : Prop} {w : P.View} {scope inner : ScopeId} {t t' : ScopeTree}
    (h : P.Entered v scope inner w t t') :
    Step.Follows P.terms (fun s s' => K ∧ P.At w u s s')
      (Eval.updateScopes fun t => t.release inner) (Eval.updateScopes fun t => t.release inner)
      (fun _ _ s s' => K ∧ P.At v u s s') (fun e e' s s' => e = e' ∧ K ∧ P.At v u s s')
      P.Apart := by
  refine ⟨grown_updateScopes _, fun s s' hs => ?_⟩
  rw [updateScopes_eq, updateScopes_eq]
  rcases h.release _ _ hs.2.scopes with ⟨r, y, y', hy, hy', hscopes⟩ | ⟨e, he, he', hscopes⟩
  · rw [hy, hy']
    exact .ok ⟨hs.1, hs.2.withScopes hscopes⟩
  · rw [he, he']
    exact .error ⟨rfl, hs.1, hs.2.withScopes hscopes⟩

/-- A computation in a scope of its own. -/
theorem inNewScope (hl : P.ScopeLaws) (hF : ∀ e, F e e) {scope : ScopeId} {x x' : ScopeId → Eval α}
    (hx : ∀ w inner, P.Follows (p ∧ P.Inner v scope w inner) V F w u (x inner) (x' inner)) :
    P.Follows p V F v u (Eval.inNewScope scope x) (Eval.inNewScope scope x') := by
  refine ⟨fun s => ?_, fun s s' hs => ?_⟩
  · exact (grown_updateScopes _ s).bind fun inner t =>
      ((hx v inner).grows t).thenAlways (grown_updateScopes _)
  · unfold Eval.inNewScope
    rw [Step.run_bind, Step.run_bind, updateScopes_eq, updateScopes_eq]
    have hcreate := hl.create hs.2.scopes scope
    generalize s.scopes.create scope = r at hcreate
    generalize s'.scopes.create scope = r' at hcreate
    cases hcreate with
    | error h => exact .error ⟨h ▸ hF _, hs.2⟩
    | @ok r r' h =>
      obtain ⟨inner, t⟩ := r
      obtain ⟨_, t'⟩ := r'
      obtain ⟨rfl, w, hw⟩ := h
      have hbody := Step.Follows.thenAlways (grown_updateScopes _) (hx w inner)
        (fun a a' => (leave hw).mono (fun _ _ => id) (fun _ _ _ _ => id)
          (fun e _ _ _ he => ⟨he.1 ▸ hF e, he.2.2⟩) fun _ _ => id)
        (fun e e' => (leave hw).mono (fun _ _ => id) (fun _ _ _ _ => id)
          (fun _ _ _ _ he => he.2) fun _ _ => id)
      exact hbody.ends _ _ ⟨⟨hs.1, hw.nodes⟩, hs.2.withScopes hw.scopes⟩

/-- A change of the threads that leads from one relation between them to another. -/
theorem changeThread {K : Prop} {T T' : List Nat → Thread → Thread → Prop} {f f' : Thread → Thread}
    {E : Error → Error → State → State → Prop}
    (hf : ∀ held r r', T held r r' → T' held (f r) (f' r')) :
    Step.Follows P.terms (fun s s' => K ∧ P.Near v T s s') (Eval.changeThread f)
      (Eval.changeThread f') (fun _ _ s s' => K ∧ P.Near v T' s s') E P.Apart :=
  ⟨grown_changeThread f, fun _ _ h => .ok ⟨h.1, h.2.withThread (hf _ _ _ h.2.threads)⟩⟩

/-- A change of the threads where the computations break off. -/
theorem onBreak {R : State → State → Prop} {Q : α → α → State → State → Prop}
    {E : Error → Error → State → State → Prop} {x x' : Eval α} {f f' : Thread → Thread}
    (hx : Step.Follows P.terms R x x' Q E P.Apart)
    (hf : ∀ w held q q', P.threads w held q q' → ∃ u', P.threads u' held (f q) (f' q')) :
    Step.Follows P.terms R (Eval.onBreak x f) (Eval.onBreak x' f') Q E P.Apart := by
  refine Step.Follows.whenCrashed (fun _ => ⟨Nat.le_refl _, List.prefix_refl _⟩) hx ?_
  rintro s s' ⟨v, w, h⟩
  obtain ⟨u', hu'⟩ := hf w _ _ _ h.threads
  exact ⟨v, u', h.withThread hu'⟩

/-- A change of the threads after the computations, however they end. -/
theorem guarded {K : Prop} {w : P.Line} {x x' : Eval α} {f f' : Thread → Thread}
    (hx : P.Follows K V F v w x x')
    (hback : ∀ held r r', P.threads w held r r' → P.threads u held (f r) (f' r'))
    (hbreak : ∀ w held q q', P.threads w held q q' → ∃ u', P.threads u' held (f q) (f' q')) :
    Step.Follows P.terms (fun s s' => K ∧ P.At v w s s') (Eval.guarded x f) (Eval.guarded x' f')
      (fun a a' s s' => V a a' ∧ P.At v u s s') (fun e e' s s' => F e e' ∧ P.At v u s s') P.Apart :=
  Step.Follows.thenAlways (grown_changeThread _) (onBreak hx hbreak)
    (fun _ _ => changeThread hback) fun _ _ => changeThread hback

/-- A computation under the id of a call. -/
theorem underCallId (hl : P.ThreadLaws) {name : String} {x x' : Eval α}
    (hx : ∀ w, P.Follows (p ∧ (P.ready u → P.ready w)) V F v w x x') :
    P.Follows p V F v u
      (do
        let depth ← Step.gets fun s => s.thread.depth
        Eval.underCallId (.generated depth name) x)
      (do
        let depth ← Step.gets fun s => s.thread.depth
        Eval.underCallId (.generated depth name) x') := by
  refine ⟨fun s => ?_, fun s s' hs => ?_⟩
  · have hgets {β : Type} (f : State → β) (s : State) :
        (Step.gets f s : Outcome State Error β).Grown P.terms s := P.terms.refl s
    exact (hgets _ s).bind fun depth s => (hgets _ s).bind fun previous t =>
      (grown_changeThread _ t).bind fun _ t => grown_guarded ((hx u).grows t)
  · obtain ⟨w, hready, hw, hback⟩ := hl.callId hs.2.threads name
    exact (guarded (hx w) hback fun _ _ _ _ => hl.callIdBack hs.2.threads).ends _ _
      ⟨⟨hs.1, hready⟩, hs.2.withThread hw⟩

/-- The evaluation of the default values of a function, for which nobody else can call it. -/
theorem whilePreparing (hl : P.ThreadLaws) {id : Nat} {x x' : Eval α}
    (hx : ∀ w, P.Follows (p ∧ (P.ready u → P.ready w) ∧ P.signable id) V F v w x x') :
    Step.Follows P.terms
      (fun s s' => p ∧ (id ∉ s.thread.preparing ∧ id ∉ s.held) ∧ P.At v u s s')
      (do
        Eval.changeThread fun t => { t with preparing := id :: t.preparing }
        Eval.guarded x fun t => { t with preparing := t.preparing.erase id })
      (do
        Eval.changeThread fun t => { t with preparing := id :: t.preparing }
        Eval.guarded x' fun t => { t with preparing := t.preparing.erase id })
      (fun a a' s s' => V a a' ∧ P.At v u s s') (fun e e' s s' => F e e' ∧ P.At v u s s')
      P.Apart := by
  refine ⟨fun s => ?_, fun s s' hs => ?_⟩
  · exact (grown_changeThread _ s).bind fun _ t => grown_guarded ((hx u).grows t)
  · obtain ⟨hp, ⟨hpreparing, hheld⟩, hat⟩ := hs
    obtain ⟨hsignable, w, hready, hw, hback⟩ := hl.prepare hat.threads hpreparing hheld
    exact (guarded (hx w) hback fun _ _ _ _ hq => hl.prepareBack hq hsignable).ends _ _
      ⟨⟨hp, hready, hsignable⟩, hat.withThread hw⟩

theorem grown_updateThread (f : Thread → Except Error (α × Thread)) (s : State) :
    (Eval.updateThread f s).Grown P.terms s := by
  unfold Eval.updateThread Step.update
  dsimp only
  cases f s.thread <;> exact ⟨Nat.le_refl _, List.prefix_refl _⟩

/-- Leaving the innermost call. -/
theorem pop {K : Prop} {T : List Nat → Thread → Thread → Prop}
    {E : Error → Error → State → State → Prop}
    (hT : ∀ held r r', T held r r' → P.Popped u held r r') :
    Step.Follows P.terms (fun s s' => K ∧ P.Near v T s s') (Eval.updateThread Thread.pop)
      (Eval.updateThread Thread.pop) (fun _ _ s s' => K ∧ P.At v u s s') E P.Apart := by
  refine ⟨grown_updateThread _, fun s s' hs => ?_⟩
  obtain ⟨f, f', q, q', hq, hq', hthreads⟩ := hT _ _ _ hs.2.threads
  unfold Eval.updateThread Step.update
  dsimp only
  rw [hq, hq']
  exact .ok ⟨hs.1, hs.2.withThread hthreads⟩

/-- A computation in the frame of a call, which notes its value there. -/
theorem inFrame (hl : P.ThreadLaws) {f f' : ScriptFunction} (hf : p → P.callees f f')
    (arguments : List (String × Value)) (scope : ScopeId) {x x' : Eval Value}
    (hx : ∀ w, P.Follows (p ∧ P.ready w) Eq F v w x x') :
    P.Follows p Eq F v u
      (do
        Eval.changeThread fun t => t.push ⟨f, arguments, scope, none⟩
        (Eval.onBreak (do
          let value ← x
          Eval.changeThread fun t => t.setResult value
          return value) Thread.drop).thenAlways (Eval.updateThread Thread.pop))
      (do
        Eval.changeThread fun t => t.push ⟨f', arguments, scope, none⟩
        (Eval.onBreak (do
          let value ← x'
          Eval.changeThread fun t => t.setResult value
          return value) Thread.drop).thenAlways (Eval.updateThread Thread.pop)) := by
  refine ⟨fun s => ?_, fun s s' hs => ?_⟩
  · refine (grown_changeThread _ s).bind fun _ t => ?_
    refine Outcome.Grown.thenAlways (grown_onBreak (((hx u).grows t).bind fun value t => ?_))
      (grown_updateThread _)
    exact (grown_changeThread _ t).bind fun _ t => P.terms.refl t
  · obtain ⟨w, hready, hw, hback⟩ := hl.frame hs.2.threads (hf hs.1) arguments scope
    have hnote (value : Value) : Step.Follows P.terms (P.At v w)
        (do
          Eval.changeThread fun t => t.setResult value
          return value : Eval Value)
        (do
          Eval.changeThread fun t => t.setResult value
          return value : Eval Value)
        (fun a a' s s' => a = a' ∧ P.Near v (P.Popped u) s s')
        (fun e e' s s' => F e e' ∧ P.At v w s s') P.Apart :=
      Step.Follows.bind
        ((changeThread (K := True) fun held r r' h => (hback held r r' h).2 value).strengthen
          fun _ _ h => ⟨trivial, h⟩)
        fun _ _ => .pure fun _ _ h => ⟨rfl, h.2⟩
    have hbody := Step.Follows.thenAlways (grown_updateThread _)
      (onBreak (Step.Follows.bind_same (K := fun _ => P.At v w) (hx w) hnote)
        fun _ _ _ _ => hl.frameBack)
      (fun a a' => pop fun _ _ _ => id) fun e e' => pop fun held r r' h => (hback held r r' h).1
    exact hbody.ends _ _ ⟨⟨hs.1, hready⟩, hs.2.withThread hw⟩

end Follows

end Pairing

end TreeScript
