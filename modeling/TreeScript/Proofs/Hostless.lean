import TreeScript.CommandLine
import TreeScript.Proofs.Identified
import TreeScript.Proofs.Registry
import TreeScript.Proofs.Stock.Visit

/-!
# Runs without a host

Objects of the host come from native functions of the host. The core functions make none, so without
functions of the host no value of a run is such an object or has one in it: not in the variables, the
fields of objects, the default values, the calls with their arguments and results, nor in what tasks
were given and what became of them (`State.Hostless`). This is said of all states on the way through an
evaluator that searches them (`Eval.search`): whatever it does where it finds something, it does as the
plain one does.

The field policy is about fields of host objects only, so it makes no difference to such a run, and the
option `--strict-fields` of the command line makes none to a report.
-/

namespace TreeScript

/-! ## Values and states -/

namespace Value

mutual

/-- Whether the value is no object of the host and has none in it. -/
def isHostless : Value → Bool
  | host .. => false
  | list values => areHostless values
  | _ => true

/-- Whether none of the values is an object of the host or has one in it. -/
def areHostless : List Value → Bool
  | [] => true
  | v :: rest => v.isHostless && areHostless rest

end

theorem areHostless_iff {values : List Value} :
    areHostless values = true ↔ ∀ v ∈ values, v.isHostless = true := by
  induction values with
  | nil => simp [areHostless]
  | cons v rest ih => simp [areHostless, ih]

/-- The values of a run without a host. -/
theorem laws_hostless : ValueLaws fun v => v.isHostless = true where
  none := rfl
  bool _ := rfl
  int _ := rfl
  float _ := rfl
  string _ := rfl
  object _ := rfl
  task _ := rfl
  list := areHostless_iff

end Value

/-- No object of the host is anywhere in the state. -/
structure State.Hostless (s : State) : Prop where
  locals : ∀ id c name x, s.scopes.find? id = some c → c.locals.find? name = some x →
    x.value.isHostless
  fields : ∀ ref name x, (s.heap.fields ref).find? name = some x → x.value.isHostless
  hosts : s.heap.hosts = #[]
  arguments : ∀ frame ∈ s.thread.frames, ∀ a ∈ frame.arguments, a.2.isHostless
  results : ∀ frame ∈ s.thread.frames, ∀ v, frame.result = some v → v.isHostless
  defaults : ∀ id signature, s.signatures.find? id = some signature →
    ∀ p ∈ signature.parameters, ∀ v, p.default = some v → v.isHostless
  outcomes : ∀ (i : Nat) task v, s.tasks[i]? = some task → task.outcome = some (.ok v) → v.isHostless
  jobs : ∀ job ∈ s.parked, ∀ scope f bound returns, job.work = .call scope f bound returns →
    ∀ b ∈ bound, b.2.isHostless

theorem State.Stocked.hostless {s : State} {made : List ScriptFunction}
    (h : s.Stocked (fun v => v.isHostless = true) made) : s.Hostless where
  locals id c name x hc hx := (h.scopes id c hc).locals name x hx
  fields ref name x hx := h.world.heap.fields ref name x hx
  hosts := h.world.heap.hosts.resolve_right fun hall => Bool.noConfusion (hall (.host "" 0))
  arguments frame hframe := (h.frames frame hframe).arguments
  results frame hframe := (h.frames frame hframe).result
  defaults id signature hs := (h.signatures id signature hs).defaults
  outcomes := h.outcomes
  jobs job hjob scope f bound returns hwork b hb := by
    have hstocked := h.parked job hjob
    rw [hwork] at hstocked
    exact (hstocked b hb).1

/-! ## Native functions -/

/-- The outcome of a routine that makes no objects and does not stop on the way. -/
inductive Native.Core.Gives (V : Value → Prop) (w : World) : Outcome World HostError Value → Prop
  | ok {v : Value} {w' : World} (hv : V v) (hheap : w'.heap = w.heap) : Gives V w (.ok v w')
  | error (e : HostError) : Gives V w (.error e w)
  | exhausted : Gives V w (.exhausted w)

theorem Native.Core.Gives.heap {V : Value → Prop} {w : World} {o : Outcome World HostError Value}
    (h : Gives V w o) : o.reached.heap = w.heap := by
  cases h with
  | ok _ hheap => exact hheap
  | error | exhausted => rfl

/-- What the function returns is what its routine gives, in the form of the declared type. -/
theorem Native.Stocked.of_gives {V : Value → Prop} (hV : ValueLaws V) {n : Native}
    (hn : ∀ thread receiver arguments w, Core.Gives V w (n.routine.run thread receiver arguments w)) :
    n.Stocked V where
  value h := by
    obtain ⟨taken, coerced, result, hrun, hconclude⟩ := Native.run_of_invoke h
    have hresult : V result := by
      have hgives := hrun ▸ hn _ _ _ _
      cases hgives
      assumption
    unfold Native.Signature.conclude at hconclude
    split at hconclude
    · cases hconclude
      exact hV.none
    · split at hconclude
      · next hadapt =>
        cases hconclude
        exact hV.adapt? hresult hadapt
      · cases hconclude
  heap hw h := by
    rw [← Outcome.reached_of_state? h]
    rcases n.reached_invoke .. with hsame | ⟨taken, coerced, -, hrun⟩
    · rwa [hsame]
    · rwa [hrun, (hn _ _ _ _).heap]

namespace Native.Core

variable {V : Value → Prop} (hV : ValueLaws V) {thread : Thread} {receiver : Option Value}
  {arguments : List Value} {w : World}

theorem gives_compute {f : Heap → List Value → Except HostError Value}
    (hf : ∀ h arguments v, f h arguments = .ok v → V v) :
    Gives V w ((Routine.compute f).run thread receiver arguments w) := by
  show Gives V w (Step.ofExcept (f w.heap arguments) w)
  cases hr : f w.heap arguments with
  | error e => exact .error e
  | ok v => exact .ok (hf _ _ _ hr) rfl

include hV

/-- The core functions give numbers, texts or nothing, and make no objects. -/
theorem gives_of_mem {n : Native} (h : n ∈ functions) (thread : Thread) (receiver : Option Value)
    (arguments : List Value) (w : World) : Gives V w (n.routine.run thread receiver arguments w) := by
  simp only [functions, List.mem_cons, List.not_mem_nil, or_false] at h
  rcases h with rfl | rfl | rfl | rfl | rfl | rfl
  · change Gives V w ((Step.ofOption (arguments.mapM w.heap.text?) >>= _) w)
    cases arguments.mapM w.heap.text? with
    | none => exact .exhausted
    | some texts => exact .ok hV.none rfl
  · refine gives_compute (f := fun h arguments => length h (arguments.head?.getD .none))
      fun h arguments v hv => ?_
    unfold length at hv
    split at hv <;> cases hv <;> exact hV.int _
  · change Gives V w ((Step.ofOption (w.heap.text? (arguments.head?.getD .none)) >>= _) w)
    cases w.heap.text? (arguments.head?.getD .none) with
    | none => exact .exhausted
    | some text => exact .ok (hV.string _) rfl
  · refine gives_compute (f := fun _ arguments => .ok (.string (arguments.head?.getD .none).typeName))
      fun h arguments v hv => ?_
    cases hv
    exact hV.string _
  · refine gives_compute (f := fun _ arguments => maxInt arguments) fun h arguments v hv => ?_
    unfold maxInt at hv
    split at hv <;> cases hv
    exact hV.int _
  · refine gives_compute (f := fun _ arguments => maxFloat arguments) fun h arguments v hv => ?_
    unfold maxFloat at hv
    repeat' split at hv
    all_goals cases hv
    exact hV.float _

end Native.Core

/-! ## Engines -/

/-- The engine with another field policy. -/
def Engine.withPolicy (engine : Engine) (policy : FieldPolicy) : Engine := { engine with policy }

/-- All native functions are core functions. -/
def Engine.Hostless (engine : Engine) : Prop :=
  ∀ name, ∀ n ∈ engine.natives name, n ∈ Native.Core.functions

theorem Engine.hostless_of_create {options : EngineOptions} {engine : Engine}
    (hhost : options.host = .empty) (hengine : Engine.create options = .ok engine) :
    engine.Hostless := by
  intro name n hn
  have hempty (h : n ∈ Registry.empty.candidates name) : n ∈ Native.Core.functions := by cases h
  have hcore (h : n ∈ Native.Core.registry.candidates name) : n ∈ Native.Core.functions := by
    rw [Native.Core.registry, Registry.candidates_foldl_add, List.mem_append] at h
    exact h.elim hempty List.mem_of_mem_filter
  unfold Engine.create at hengine
  dsimp only at hengine
  split at hengine
  · cases hengine
  · cases hengine
    unfold Engine.natives at hn
    dsimp only at hn
    cases hbuiltins : options.withBuiltins with
    | true =>
      rw [hbuiltins, hhost, if_pos rfl] at hn
      split at hn
      · exact hcore hn
      · exact hempty hn
    | false =>
      rw [hbuiltins, hhost, if_neg Bool.false_ne_true] at hn
      split at hn
      · exact hempty hn
      · exact hempty hn

theorem Stock.laws_hostless {engine : Engine} (h : engine.Hostless) (policy : FieldPolicy) :
    Laws (fun v => v.isHostless = true) engine (engine.withPolicy policy) where
  toValueLaws := Value.laws_hostless
  natives := rfl
  resolver := rfl
  symbols := rfl
  stocked name n hn :=
    .of_gives Value.laws_hostless (Native.Core.gives_of_mem Value.laws_hostless (h name n hn))
  host _ _ h := Bool.noConfusion h

/-! ## States on the way -/

namespace Eval

open Classical in
/-- Carries out a visit, but does something else where there is an object of the host in the state
before or after it, or in what comes of it. -/
noncomputable def searched (otherwise x : Eval Flow) : Eval Flow := fun s =>
  if s.Hostless then
    match x s with
    | .ok flow t => if t.Hostless ∧ flow.toValue.isHostless then .ok flow t else otherwise t
    | .error e t => if t.Hostless then .error e t else otherwise t
    | .crashed t => if t.Hostless then .crashed t else otherwise t
    | .blocked t => if t.Hostless then .blocked t else otherwise t
    | .exhausted t => .exhausted t
  else otherwise s

/-- Visits nodes as `Eval.visit` does, and searches each visit. -/
noncomputable def search (engine : Engine) (otherwise : Eval Flow) : Nat → Visit
  | 0 => fun _ _ => Step.exhaust
  | limit + 1 => fun scope n => searched otherwise
      ((step engine limit (search engine otherwise limit) scope n).mapError fun e => e.located n.span)

end Eval

namespace Stock

variable {engine engine' : Engine} {made : List ScriptFunction}

theorem Keeps.searched {x x' : Eval Flow} (otherwise : Eval Flow)
    (h : Keeps (fun v => v.isHostless = true) made (fun flow => flow.toValue.isHostless = true) x x') :
    Keeps (fun v => v.isHostless = true) made (fun flow => flow.toValue.isHostless = true) x
      (Eval.searched otherwise x') := by
  refine ⟨⟨fun s hs => ?_⟩⟩
  obtain ⟨heq, hends⟩ := h.ends.ends s hs
  obtain ⟨more, hs⟩ := hs
  refine ⟨?_, hends⟩
  unfold Eval.searched
  rw [if_pos hs.hostless, heq]
  cases ho : x s <;> rw [ho] at hends
  case ok flow t =>
    obtain ⟨more, ht, hflow⟩ := hends
    exact if_pos ⟨ht.hostless, hflow⟩
  case error _ t | crashed t | blocked t =>
    obtain ⟨more, ht⟩ := hends
    exact if_pos ht.hostless

/-- Searching the states and another policy make no difference. -/
theorem visits_search (hl : Laws (fun v => v.isHostless = true) engine engine') (otherwise : Eval Flow)
    (limit : Nat) :
    Visits (fun v => v.isHostless = true) (Eval.visit engine limit)
      (Eval.search engine' otherwise limit) := by
  induction limit with
  | zero => exact fun _ _ _ => .exhaust
  | succ limit ih =>
    exact fun _ scope n => .searched otherwise (Keeps.step hl ih limit scope n).mapError

end Stock

/-! ## Runs -/

/-- The states that programs lead a new runtime to, one after the other. -/
inductive Engine.Plays (engine : Engine) : State → Prop
  | start : Plays engine .initial
  | run {s t : State} (before : Plays engine s) (program : Node)
      (ended : (engine.run program s).state? = some t) : Plays engine t
  | settle {s t : State} (before : Plays engine s) (ended : (engine.settle s).state? = some t) :
      Plays engine t

section Runs

variable {engine : Engine} (hl : engine.Hostless)

include hl

theorem Engine.Plays.stocked {s : State} (h : engine.Plays s) :
    ∃ made, s.Stocked (fun v => v.isHostless = true) made := by
  have hvisits := Stock.visits (Stock.laws_hostless hl engine.policy) Eval.patience
  induction h with
  | start => exact ⟨[], .initial⟩
  | run _ program ended ih =>
    obtain ⟨made, hs⟩ := ih
    obtain ⟨more, ht⟩ := (Stock.Keeps.evaluate hvisits ScopeTree.root program).at_end hs ended
    exact ⟨made ++ more, ht⟩
  | settle _ ended ih =>
    obtain ⟨made, hs⟩ := ih
    obtain ⟨more, ht⟩ := (Stock.Keeps.settle Value.laws_hostless hvisits).at_end hs ended
    exact ⟨made ++ more, ht⟩

/-- A run is the same under every policy, and if its states are searched. -/
theorem Engine.search_run {s : State} (h : engine.Plays s) (policy : FieldPolicy) (otherwise : Eval Flow)
    (program : Node) :
    Visit.evaluate (Eval.search (engine.withPolicy policy) otherwise Eval.patience) ScopeTree.root
      program s = engine.run program s := by
  obtain ⟨made, hs⟩ := h.stocked hl
  have hvisits := Stock.visits_search (Stock.laws_hostless hl policy) otherwise Eval.patience
  exact (Stock.Keeps.evaluate hvisits ScopeTree.root program).eq hs

theorem Engine.search_settle {s : State} (h : engine.Plays s) (policy : FieldPolicy)
    (otherwise : Eval Flow) :
    Eval.settle (Eval.search (engine.withPolicy policy) otherwise Eval.patience) s =
      engine.settle s := by
  obtain ⟨made, hs⟩ := h.stocked hl
  have hvisits := Stock.visits_search (Stock.laws_hostless hl policy) otherwise Eval.patience
  exact (Stock.Keeps.settle Value.laws_hostless hvisits).eq hs

theorem Engine.run_withPolicy {s : State} (h : engine.Plays s) (policy : FieldPolicy) (program : Node) :
    (engine.withPolicy policy).run program s = engine.run program s := by
  obtain ⟨made, hs⟩ := h.stocked hl
  have hvisits := Stock.visits (Stock.laws_hostless hl policy) Eval.patience
  exact (Stock.Keeps.evaluate hvisits ScopeTree.root program).eq hs

theorem Engine.settle_withPolicy {s : State} (h : engine.Plays s) (policy : FieldPolicy) :
    (engine.withPolicy policy).settle s = engine.settle s := by
  obtain ⟨made, hs⟩ := h.stocked hl
  have hvisits := Stock.visits (Stock.laws_hostless hl policy) Eval.patience
  exact (Stock.Keeps.settle Value.laws_hostless hvisits).eq hs

theorem Engine.hostless_of_run {s t : State} (h : engine.Plays s) {program : Node} {v : Value}
    (hv : engine.run program s = .ok v t) : v.isHostless = true := by
  obtain ⟨made, hs⟩ := h.stocked hl
  have hvisits := Stock.visits (Stock.laws_hostless hl engine.policy) Eval.patience
  obtain ⟨-, -, hvalue⟩ := (Stock.Keeps.evaluate hvisits ScopeTree.root program).value hs hv
  exact hvalue

end Runs

/-! ## The command line -/

namespace CommandLine

variable (read : String → Except String String) (c : Command)

/-- The symbols and the program of a command. -/
def sources : Except Error (Symbols × Node) := do
  let source ← contents read c.tree
  let symbols ← match c.symbols with
    | none => pure Symbols.empty
    | some file => symbolsOf (← contents read file)
  return (symbols, ← Program.parse source)

/-- What an engine of the command line is made from. -/
def options (symbols : Symbols) : EngineOptions :=
  { EngineOptions.standard with
    policy := if c.strictFields then .strict else .lenient
    symbols
    withBuiltins := !c.withoutBuiltins }

theorem load_eq : load read c = do
    let (symbols, program) ← sources read c
    return (← Engine.create (options c symbols), program) := by
  unfold load sources
  cases contents read c.tree with
  | error e => rfl
  | ok source =>
    simp only [bind, Except.bind]
    cases c.symbols with
    | none =>
      dsimp only [pure, Except.pure]
      cases Program.parse source <;> rfl
    | some file =>
      dsimp only
      cases contents read file with
      | error e => rfl
      | ok text =>
        dsimp only
        cases symbolsOf text with
        | error e => rfl
        | ok symbols =>
          dsimp only
          cases Program.parse source <;> rfl

/-- A command does the same with and without strict fields. -/
theorem execute_strictFields (strict : Bool) :
    execute read { c with strictFields := strict } = execute read c := by
  unfold execute
  rw [load_eq, load_eq, show sources read { c with strictFields := strict } = sources read c from rfl]
  cases sources read c with
  | error e => rfl
  | ok p =>
    obtain ⟨symbols, program⟩ := p
    have hcreate (c : Command) : ∃ engine, Engine.create (options c symbols) = .ok engine ∧
        ∀ strict, Engine.create (options { c with strictFields := strict } symbols) =
          .ok (engine.withPolicy (if strict then .strict else .lenient)) := ⟨_, rfl, fun _ => rfl⟩
    obtain ⟨engine, hengine, hpolicy⟩ := hcreate c
    have hhostless : engine.Hostless := Engine.hostless_of_create rfl hengine
    simp only [bind, Except.bind, hengine, hpolicy, pure, Except.pure]
    exact congrArg report (Engine.run_withPolicy hhostless .start _ program)

end CommandLine

theorem Engine.Plays.withPolicy {engine : Engine} (hl : engine.Hostless) {s : State}
    (h : engine.Plays s) (policy : FieldPolicy) : (engine.withPolicy policy).Plays s := by
  induction h with
  | start => exact .start
  | run before program ended ih =>
    exact .run ih program ((congrArg Outcome.state? (run_withPolicy hl before policy program)).trans ended)
  | settle before ended ih =>
    exact .settle ih ((congrArg Outcome.state? (settle_withPolicy hl before policy)).trans ended)

/-- **Runs without a host.** Without functions of the host, no object of the host is in any state that
programs lead to, nor in one on the way, nor in what a program gives. Under every field policy the same
states are reached, and programs end in the same way. So command lines that differ in the option for
strict fields get the same report. -/
theorem Engine.policy_unobservable {options : EngineOptions} {engine : Engine}
    (hhost : options.host = .empty) (hengine : Engine.create options = .ok engine) :
    (∀ s, engine.Plays s → s.Hostless ∧ ∀ policy,
      (engine.withPolicy policy).Plays s ∧
      (engine.withPolicy policy).settle s = engine.settle s ∧
      (∀ program, (engine.withPolicy policy).run program s = engine.run program s) ∧
      ∀ otherwise,
        let search := Eval.search (engine.withPolicy policy) otherwise Eval.patience
        Eval.settle search s = engine.settle s ∧
        ∀ program, search.evaluate ScopeTree.root program s = engine.run program s) ∧
    (∀ s t program v, engine.Plays s → engine.run program s = .ok v t → v.isHostless) ∧
    ∀ read arguments arguments' c strict, Command.ofArguments? arguments = some c →
      Command.ofArguments? arguments' = some { c with strictFields := strict } →
      CommandLine.run read arguments' = CommandLine.run read arguments := by
  have hl : engine.Hostless := hostless_of_create hhost hengine
  refine ⟨fun s hs => ⟨?_, fun policy => ⟨hs.withPolicy hl policy, settle_withPolicy hl hs policy,
    run_withPolicy hl hs policy, fun otherwise => ?_⟩⟩, fun s t program v hs hv => ?_, ?_⟩
  · obtain ⟨made, hstocked⟩ := hs.stocked hl
    exact hstocked.hostless
  · exact ⟨search_settle hl hs policy otherwise, search_run hl hs policy otherwise⟩
  · exact hostless_of_run hl hs hv
  · intro read arguments arguments' c strict hc hc'
    unfold CommandLine.run
    rw [hc, hc']
    exact CommandLine.execute_strictFields read c strict

/-- Makes an object with a list, binds it to a parameter by default, and returns the list. -/
def Node.readingField : Node :=
  let node (id : Nat) (kind : NodeKind) : Node := ⟨id, .origin, kind⟩
  node 0 (.program [
    node 1 (.variableDeclaration "o" false none (some (node 2 (.objectLiteral
      [⟨"a", false, none, node 3 (.listLiteral [node 4 (.literal (.int 1))])⟩])))),
    node 5 (.function "get" false
      (some (node 6 (.parameterList [⟨"p", false, none, some (node 7 (.path "o")), .origin⟩])))
      none (node 8 (.block [node 9 (.returnJump (some (node 10 (.path "p:a"))))]))),
    node 11 (.call "get" [] none)])

theorem Engine.policy_unobservable_readingField :
    let run := Engine.core.run Node.readingField .initial
    EngineOptions.standard.host = .empty ∧ Engine.create .standard = .ok .core ∧
      run.value?.map (·.typeName) = some "list" ∧
      (Engine.core.withPolicy .strict).run Node.readingField .initial = run ∧
      (∀ v t, run = .ok v t → v.isHostless) ∧
      ∀ read, CommandLine.run read ["run", "--tree", "p.json", "--strict-fields"] =
        CommandLine.run read ["run", "--tree", "p.json"] := by
  have hhost : EngineOptions.standard.host = .empty := rfl
  have hcreate : Engine.create .standard = .ok .core := rfl
  obtain ⟨hstates, hvalues, hreports⟩ := policy_unobservable hhost hcreate
  obtain ⟨-, hpolicies⟩ := hstates .initial .start
  obtain ⟨-, -, hruns, -⟩ := hpolicies .strict
  refine ⟨hhost, hcreate, by decide +kernel, hruns Node.readingField,
    fun v t hv => hvalues .initial t Node.readingField v .start hv, fun read => ?_⟩
  exact hreports read _ _ ⟨"p.json", none, false, false⟩ true rfl rfl

end TreeScript
