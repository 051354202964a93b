import TreeScript.Proofs.Aside
import TreeScript.Proofs.Scope.Edit
import TreeScript.Proofs.Scope.Tidy

/-!
# Invariants of runs

A `Regime` is a property of states that every computation of the evaluator keeps, together with a property
of the errors that it fails with. What holds depends on the `Stage` of the run: which scopes have been
entered, which functions are being prepared, and which tasks run or wait. A computation that enters a scope,
prepares a function or runs a task gets back to the stage that it started from, unless it stops on the way.

`Regime.Laws` asks one thing for each operation that the evaluator applies to the state, and
`Regime.Keeps` is what follows for computations: from a state where the regime holds, `x` ends where
it holds again, and `x'` does the same as `x`.
-/

namespace TreeScript

open Step

structure Regime where
  /-- How far scopes have been entered and tasks have been started. -/
  Stage : Type
  /-- The regime holds in a state. -/
  At : Stage → State → Prop
  /-- What holds where a computation waits. -/
  Rests : Stage → State → Prop := At
  /-- The stage where a job waits besides. -/
  reserve : Stage → Job → Stage
  /-- The stage where a job runs. -/
  running : Stage → Job → Stage
  /-- Whether nodes may be visited in a scope. -/
  inside : Stage → ScopeId → Prop := fun _ _ => True
  /-- Whether scopes may be made below a scope. -/
  above : Stage → ScopeId → Prop := fun _ _ => True
  node : Node → Prop := fun _ => True
  declared : ScriptFunction → Prop := fun _ => True
  runnable : Job → Prop := fun _ => True
  error : Error → Prop := fun _ => True
  place : Span → Prop := fun _ => True
  /-- Whether computations may break off. -/
  breaks : Prop := True

namespace Regime

variable {R : Regime} {engine : Engine} {α β : Type}

/-- What holds where a computation stops, and that it may break off if it does. -/
def Stopped (R : Regime) (g : R.Stage) : Stop → State → Prop
  | .crashed, s => R.breaks ∧ R.At g s
  | .blocked, s => R.Rests g s

/-- A routine breaks off only if that is allowed. -/
def Calm (R : Regime) (routine : Routine) : Prop := R.breaks ∨ routine.Steady

/-- What can be called as it is. -/
def Member (R : Regime) : Callable → Prop
  | .script f => R.declared f
  | .native n => R.Calm n.routine
  | .overloads _ => True

/-- What the name of a call can stand for. -/
def Callee (R : Regime) : Callable → Prop
  | .overloads members => ∀ c ∈ members, R.Member c
  | c => R.Member c

/-- What a task can have to do. -/
def Given (R : Regime) : Work → Prop
  | .call .. => True
  | .routine routine => R.Calm routine
  | .failure code message => R.error (.of (.reported code message))

/-- The stage where jobs wait besides. -/
def reserveAll (R : Regime) (g : R.Stage) (jobs : List Job) : R.Stage :=
  jobs.foldr (fun job g => R.reserve g job) g

/-- The scope `inner` was entered; leaving it leads back to the stage `g`. -/
structure Entered (R : Regime) (g : R.Stage) (inner : ScopeId) (g' : R.Stage) : Prop where
  inside : R.inside g' inner
  /-- The scope is released. -/
  release : ∀ {s r u}, R.At g' s → s.scopes.release inner = .ok (r, u) → R.At g { s with scopes := u }
  /-- The scope is left behind. -/
  leave : ∀ {s}, R.At g' s → R.At g s
  rests : ∀ {s}, R.Rests g' s → R.Rests g s

/-- The preparation of a function has begun; its end leads back to the stage `g`. -/
structure Engaged (R : Regime) (g : R.Stage) (id : Nat) (g' : R.Stage) : Prop where
  inside : ∀ {scope}, R.inside g scope → R.inside g' scope
  /-- The preparation has failed. -/
  ended : ∀ {s}, R.At g' s →
    R.At g { s with thread := { s.thread with preparing := s.thread.preparing.erase id } }
  /-- The function has got its signature. -/
  signed : ∀ {s}, R.At g' s → ∀ signature, R.At g { s with
    signatures := s.signatures.insert id signature
    thread := { s.thread with preparing := s.thread.preparing.erase id } }
  rests : ∀ {s}, R.Rests g' s → R.Rests g s

/-- What a regime does not depend on, and how a preparation begins. -/
structure StateLaws (R : Regime) : Prop where
  rests : ∀ {g s}, R.At g s → R.Rests g s
  world : ∀ {g s w}, R.At g s → R.At g { s with world := w }
  next : ∀ {g s i}, R.At g s → R.At g { s with nextFunction := i }
  thread : ∀ {g s t}, R.At g s → t.preparing = s.thread.preparing → R.At g { s with thread := t }
  engage : ∀ {g s id}, R.At g s → s.signatures.find? id = none → id ∉ s.thread.preparing → id ∉ s.held →
    ∃ g', R.Engaged g id g' ∧
      R.At g' { s with thread := { s.thread with preparing := id :: s.thread.preparing } }

structure ScopeLaws (R : Regime) : Prop where
  above : ∀ {g scope}, R.inside g scope → R.above g scope
  edit : ∀ {g s u}, R.At g s → s.scopes.Edit (R.inside g) R.declared u → R.At g { s with scopes := u }
  found : ∀ {g s id name c}, R.At g s → s.scopes.callable? id name false = some c → R.Callee c
  create : ∀ {g s scope inner u}, R.At g s → R.above g scope → s.scopes.create scope = .ok (inner, u) →
    ∃ g', R.Entered g inner g' ∧ R.At g' { s with scopes := u }

structure TaskLaws (R : Regime) : Prop where
  launched : ∀ {f}, R.declared f → ∀ task scope callId bound returns counted,
    R.runnable ⟨task, scope, callId, .call scope f bound returns, counted⟩
  given : ∀ {job : Job}, R.runnable job → R.Given job.work
  works : ∀ {g} {job : Job} {scope f bound returns}, R.runnable job →
    job.work = .call scope f bound returns → R.above (R.running g job) scope ∧ R.declared f
  /-- A task gets the next id. -/
  spawned : ∀ {g s u} {job : Job}, R.At g s → R.above g job.owner →
    s.scopes.beginTask job.owner = .ok u → job.task = s.tasks.size + 1 →
    ∀ label, R.At (R.reserve g job) { s with scopes := u, tasks := s.tasks.push (.started label) }
  start : ∀ {g s job}, R.At (R.reserve g job) s → R.At (R.running g job) (Eval.enterTask s job)
  finish : ∀ {g s t job}, R.At (R.reserve g job) s → R.Rests (R.running g job) t →
    ∀ {r : Except Error Value}, (∀ e, r = .error e → R.error e) → R.At g (Eval.leaveTask s t job r)
  park : ∀ {g s job}, R.At (R.reserve g job) s → R.runnable job →
    R.At g { s with parked := s.parked ++ [job] }
  take : ∀ {g s}, R.At g s →
    R.At (R.reserveAll g s.parked) { s with parked := [] } ∧ ∀ job ∈ s.parked, R.runnable job
  outcome : ∀ {g s} {i : Nat} {task : Task} {e : Error}, R.At g s → s.tasks[i]? = some task →
    task.outcome = some (.error e) → R.error e

structure NodeLaws (R : Regime) : Prop where
  child : ∀ {n m}, R.node n → m ∈ n.children → R.node m
  made : ∀ {n id implementation depth f}, R.node n →
    ScriptFunction.ofNode id n implementation depth = .ok f → R.declared f
  body : ∀ {f}, R.declared f → R.node f.body
  default : ∀ {f p m}, R.declared f → p ∈ f.parameters → p.default = some m → R.node m
  declaration : ∀ {f}, R.declared f → R.place f.declaration.span

structure ErrorLaws (R : Regime) (engine : Engine) : Prop extends FaultLaws engine R.error R.breaks where
  located : ∀ {e span}, R.error e → R.place span → R.error (e.located span)
  node : ∀ {n}, R.node n → R.place n.span

/-- What a regime has to satisfy. -/
structure Laws (R : Regime) (engine : Engine) : Prop extends StateLaws R, ScopeLaws R, TaskLaws R,
    NodeLaws R, ErrorLaws R engine

/-- The regime holds, and a scope has a depth if it is there. -/
def AtDepth (R : Regime) (g : R.Stage) (scope : ScopeId) (depth : Nat) (s : State) : Prop :=
  R.At g s ∧ ∀ c, s.scopes.find? scope = some c → c.depth = depth

/-- From a state where the regime holds, `x` and `x'` end alike in one where it holds, and their
errors satisfy `F`. -/
abbrev KeepsWith (R : Regime) (F : Error → Prop) (g : R.Stage) (x x' : Eval α) : Prop :=
  Step.Ensures (R.At g) x x' (fun _ => R.At g) (fun e s => F e ∧ R.At g s) (R.Stopped g)

/-- From a state where the regime holds, `x` and `x'` end alike in one where it holds. -/
abbrev Keeps (R : Regime) (g : R.Stage) (x x' : Eval α) : Prop := R.KeepsWith R.error g x x'

/-- Tidying up keeps the regime if both computations do. -/
theorem Keeps.tidied {g : R.Stage} {x x' : Eval α} {tidy tidy' : Eval β} (hx : R.Keeps g x x')
    (htidy : R.Keeps g tidy tidy') : R.Keeps g (x.thenAlways tidy) (x'.thenAlways tidy') := by
  refine hx.thenAlways (fun _ => htidy) fun e => .rec_state fun s hs => ?_
  exact htidy.mono (fun _ h => h ▸ hs.2) (fun _ _ h => ⟨hs.1, h⟩) (fun _ _ h => ⟨hs.1, h.2⟩) fun _ _ => id

theorem given_of_breaks (h : R.breaks)
    (herror : ∀ code message, R.error (.of (.reported code message))) (work : Work) : R.Given work := by
  cases work with
  | call => trivial
  | routine => exact .inl h
  | failure => exact herror ..

theorem callee_of_all (hdeclared : ∀ f, R.declared f) (h : R.breaks) (c : Callable) : R.Callee c := by
  have hmember (c : Callable) : R.Member c := by
    cases c with
    | script f => exact hdeclared f
    | native => exact .inl h
    | overloads => trivial
  cases c with
  | overloads => exact fun c _ => hmember c
  | script f => exact hmember (.script f)
  | native n => exact hmember (.native n)

theorem Entered.stopped {g g' : R.Stage} {inner : ScopeId} (h : R.Entered g inner g') {k : Stop}
    {s : State} (hs : R.Stopped g' k s) : R.Stopped g k s := by
  cases k with
  | crashed => exact ⟨hs.1, h.leave hs.2⟩
  | blocked => exact h.rests hs

/-- Nothing is asked of nodes. -/
theorem NodeLaws.of_all (hnode : ∀ n, R.node n) (hdeclared : ∀ f, R.declared f)
    (hplace : ∀ span, R.place span) : R.NodeLaws where
  child _ _ := hnode _
  made _ _ := hdeclared _
  body _ := hnode _
  default _ _ _ := hnode _
  declaration _ := hplace _

/-- Nothing is asked of errors. -/
theorem ErrorLaws.of_all (herror : ∀ e, R.error e) (hplace : ∀ span, R.place span) (h : R.breaks) :
    R.ErrorLaws engine where
  of _ := herror _
  within _ _ _ _ := herror _
  resolver _ := herror _
  steady := .inl h
  accessor _ _ := fun _ _ _ _ => herror _
  located _ _ := herror _
  node _ := hplace _

namespace Laws

variable (hl : R.Laws engine) {g : R.Stage}

include hl

/-- Native functions and paths keep the regime. -/
theorem aside : Aside engine (R.At g) R.error (R.Stopped g) R.breaks :=
  { hl.toFaultLaws with
    world := hl.world
    assign := fun h hu => hl.edit h (ScopeTree.edit_of_assignVariable hu)
    crashed := fun hb h => ⟨hb, h⟩
    blocked := hl.rests }

theorem inCall (f : ScriptFunction) {x x' : Eval α} (hx : R.Keeps g x x') :
    R.Keeps g (Eval.inCall f x) (Eval.inCall f x') :=
  hx.mapErrorWith fun _ _ _ h he => by
    obtain ⟨text, -, rfl⟩ := Option.map_eq_some_iff.1 he
    exact ⟨hl.inside h.1 _ _, h.2⟩

theorem onBreak {f : Thread → Thread} (hf : ∀ t, (f t).preparing = t.preparing) {x x' : Eval α}
    (hx : R.Keeps g x x') : R.Keeps g (x.onBreak f) (x'.onBreak f) :=
  hx.whenCrashed (fun _ h => ⟨h.1, hl.thread h.2 (hf _)⟩) fun _ => id

theorem guarded {f : Thread → Thread} (hf : ∀ t, (f t).preparing = t.preparing) {x x' : Eval α}
    (hx : R.Keeps g x x') : R.Keeps g (x.guarded f) (x'.guarded f) :=
  (hl.onBreak hf hx).tidied (.modify fun _ h => hl.thread h (hf _))

theorem locate {span : Span} (hspan : R.place span) {x x' : Eval α} (hx : R.Keeps g x x') :
    R.Keeps g (x.mapError fun e => e.located span) (x'.mapError fun e => e.located span) :=
  hx.mapError fun _ _ h => ⟨hl.located h.1 hspan, h.2⟩

/-! ## Scopes -/

/-- One scope is edited. -/
theorem edits {f : ScopeTree → Except Error ScopeTree}
    (hf : ∀ t u, f t = .ok u → t.Edit (R.inside g) R.declared u) (he : ∀ t, Unplaced (f t)) :
    R.Keeps g (Eval.changeScopes f) (Eval.changeScopes f) :=
  Eval.changeScopes_ensures (fun _ _ hs hu => hl.edit hs (hf _ _ hu))
    fun s _ hs he' => ⟨hl.unplaced (he s.scopes) he', hs⟩

theorem clearExecuted (scope : ScopeId) (n : Node) :
    R.Keeps g (Eval.changeScopes fun t => t.clearExecuted scope n)
      (Eval.changeScopes fun t => t.clearExecuted scope n) :=
  hl.edits (fun _ _ => ScopeTree.edit_of_clearExecuted) fun t => t.unplaced_clearExecuted scope n

/-- A computation in a scope of its own. -/
theorem inNewScope {scope : ScopeId} (hscope : R.above g scope) {x x' : ScopeId → Eval α}
    (hx : ∀ g' inner, R.Entered g inner g' → R.Keeps g' (x inner) (x' inner)) :
    R.Keeps g (Eval.inNewScope scope x) (Eval.inNewScope scope x') := by
  have hcreate : Step.Ensures (R.At g) (Eval.updateScopes fun t => t.create scope)
      (Eval.updateScopes fun t => t.create scope)
      (fun inner s => ∃ g', R.Entered g inner g' ∧ R.At g' s)
      (fun e s => R.error e ∧ R.At g s) (R.Stopped g) :=
    .update (fun _ _ _ hs hu => hl.create hs hscope hu)
      fun _ s hs he => ⟨hl.unplaced (s.scopes.unplaced_create scope) he, hs⟩
  refine hcreate.bind fun inner => .rec_state fun s hs => ?_
  obtain ⟨g', hentered, hs⟩ := hs
  have hrelease {E : Error → State → Prop} (hE : ∀ e s, R.error e → R.At g s → E e s) :
      Step.Ensures (R.At g') (Eval.updateScopes fun t => t.release inner)
        (Eval.updateScopes fun t => t.release inner) (fun _ => R.At g) E (R.Stopped g) :=
    .update (fun _ _ _ hs hu => hentered.release hs hu) fun e s hs he =>
      hE e s (hl.unplaced (s.scopes.unplaced_release inner) he) (hentered.leave hs)
  have hbody := (hx g' inner hentered).mono (fun _ => id) (fun _ _ => id) (fun _ _ => id)
    fun _ _ => hentered.stopped
  exact (hbody.thenAlways (fun _ => hrelease fun _ _ he hs => ⟨he, hs⟩) fun e =>
    .rec_state fun s hs => ((hrelease fun _ _ _ h => h).mono (fun _ h => h ▸ hs.2)
      (fun _ _ h => ⟨hs.1, h⟩) (fun _ _ h => ⟨hs.1, h⟩) fun _ _ => id)).strengthen fun _ h => h ▸ hs

/-! ## Depths -/

theorem depth (scope : ScopeId) :
    Step.Ensures (R.At g) (Eval.depth scope) (Eval.depth scope) (R.AtDepth g scope)
      (fun e s => R.error e ∧ R.At g s) (R.Stopped g) := by
  refine ⟨fun s hs => ⟨rfl, ?_⟩⟩
  unfold Eval.depth Eval.askScopes
  dsimp only
  cases hc : s.scopes.find? scope with
  | none =>
    have hget : s.scopes.get scope = .error (.of (.contextMissing scope)) := by
      unfold ScopeTree.get
      rw [hc]
    rw [hget]
    exact ⟨hl.of rfl, hs⟩
  | some c =>
    rw [ScopeTree.get_of_find? hc]
    refine ⟨hs, fun c' hc' => ?_⟩
    rw [hc] at hc'
    cases hc'
    rfl

/-- One scope is edited, which has no effect on depths. -/
theorem edits_atDepth {scope : ScopeId} {d : Nat} {f : ScopeTree → Except Error ScopeTree}
    (hf : ∀ t u, (∀ c, t.find? scope = some c → c.depth = d) → f t = .ok u →
      t.Edit (R.inside g) R.declared u)
    (he : ∀ t e, f t = .error e → R.error e) :
    Step.Ensures (R.AtDepth g scope d) (Eval.changeScopes f) (Eval.changeScopes f)
      (fun _ => R.AtDepth g scope d) (fun e s => R.error e ∧ R.At g s) (R.Stopped g) := by
  refine Eval.changeScopes_ensures (fun s u hs hu => ?_) fun s e hs he' => ⟨he _ _ he', hs.1⟩
  have hedit := hf _ _ hs.2 hu
  refine ⟨hl.edit hs.1 hedit, fun c' hc' => ?_⟩
  obtain ⟨c, hc, hplace⟩ := hedit.samePlaces.symm.find? hc'
  exact (congrArg Scope.Place.depth hplace).symm.trans (hs.2 c hc)

/-- Binds a variable that was made for the depth of its scope. -/
theorem defineVariable {scope : ScopeId} {d : Nat} (hscope : R.inside g scope) {v : Variable}
    (hdepth : v.depth = d) (hspan : ∀ span, v.span = some span → R.place span) :
    Step.Ensures (R.AtDepth g scope d) (Eval.changeScopes fun t => t.defineVariable scope v)
      (Eval.changeScopes fun t => t.defineVariable scope v) (fun _ => R.AtDepth g scope d)
      (fun e s => R.error e ∧ R.At g s) (R.Stopped g) := by
  refine hl.edits_atDepth (fun t u ht hu => ?_) fun t e he => ?_
  · exact ScopeTree.edit_of_defineVariable hu hscope fun c hc => hdepth.trans (ht c hc).symm
  · obtain ⟨cause, hcause, rfl | ⟨span, hv, rfl⟩⟩ := ScopeTree.defineVariable_eq_error he
    · exact hl.of hcause
    · exact hl.located (hl.of hcause) (hspan span hv)

end Laws

end Regime

end TreeScript
