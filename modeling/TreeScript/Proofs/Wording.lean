import TreeScript.Proofs.Store

/-!
# Symbols show in messages only

The symbols of an engine are read in one place: where a path could not be followed, they make up the
text of the error. Messages are passed on from there, since errors are kept in the outcomes of tasks and
come up again where a task is awaited, but no run depends on them.

* `Error.Reworded`, `State.Reworded`, `Outcome.Reworded`: two errors, states or ends of a run are equal
  but for the messages of errors.
* `Pairing.reworded`: two runs in states that are equal but for messages. One run has the engine, and
  the other one the same engine with other symbols.
* `Engine.run_reworded`: a program does the same with any two symbol tables, but for messages.
-/

namespace TreeScript

/-! ## Messages -/

/-- Two errors that differ at most in their messages. -/
structure Error.Reworded (e e' : Error) : Prop where
  code : e'.code = e.code
  span : e'.span = e.span
  invocable : e'.invocable = e.invocable

/-- Two states that differ at most in the messages of the errors that tasks have ended with. -/
structure State.Reworded (s s' : State) : Prop where
  rest : s' = { s with tasks := s'.tasks }
  tasks : List.Forall₂ (Task.Paired Error.Reworded) s.tasks.toList s'.tasks.toList

/-- Two computations have ended in the same way, but for the messages of errors. -/
inductive Outcome.Reworded {α : Type} :
    Outcome State Error α → Outcome State Error α → Prop
  | ok {a : α} {s s' : State} (h : s.Reworded s') : Reworded (.ok a s) (.ok a s')
  | error {e e' : Error} {s s' : State} (he : e.Reworded e') (h : s.Reworded s') :
      Reworded (.error e s) (.error e' s')
  | crashed {s s' : State} (h : s.Reworded s') : Reworded (.crashed s) (.crashed s')
  | blocked {s s' : State} (h : s.Reworded s') : Reworded (.blocked s) (.blocked s')
  | exhausted {s s' : State} (h : s.Reworded s') : Reworded (.exhausted s) (.exhausted s')

namespace Error.Reworded

variable {e e' : Error}

theorem refl (e : Error) : e.Reworded e := ⟨rfl, rfl, rfl⟩

theorem located (h : e.Reworded e') (span : Span) : (e.located span).Reworded (e'.located span) := by
  refine ⟨h.code, ?_, h.invocable⟩
  unfold Error.located
  dsimp only
  rw [h.span]

theorem within (h : e.Reworded e') (name text : String) :
    (e.within name text).Reworded (e'.within name text) := ⟨h.code, h.span, rfl⟩

theorem inside (h : e.Reworded e') (name text : String) :
    (e.inside name text).Reworded (e'.inside name text) := by
  unfold Error.inside
  rw [h.invocable]
  split
  · exact h
  · exact h.within name text

/-- The path could not be followed beyond the same segment. -/
theorem notFound (p : Path) (index : Nat) (symbols symbols' : Symbols) :
    (p.notFound index symbols).Reworded (p.notFound index symbols') := ⟨rfl, rfl, rfl⟩

end Error.Reworded

theorem Task.Paired.reworded (t : Task) : t.Paired Error.Reworded t :=
  ⟨rfl, rfl, rel_self fun r _ => .refl (fun _ => rfl) .refl r⟩

theorem State.Reworded.refl (s : State) : s.Reworded s :=
  ⟨rfl, List.forall₂_same.2 fun t _ => .reworded t⟩

/-! ## The pairing -/

/-- Scopes are equal. -/
def Facets.equal : Facets where
  low := 0
  locals _ _ := True
  functions f f' := f' = f
  executed _ e e' := e' = e
  pending _ a b := b = a

/-- Two runs in states that are equal but for messages. -/
def Pairing.reworded : Pairing where
  View := Unit
  Line := Thread
  scopes _ t t' := t.Paired .equal t' ∧ True
  threads u _ r r' := (r = u ∧ r' = u) ∧ True
  world w w' := w' = w ∧ True
  heap := @World.heap_eq_of_eq_and True
  tasks a a' := List.Forall₂ (Task.Paired Error.Reworded) a.toList a'.toList
  jobs j j' := j.Paired (fun f f' => f' = f ∧ True) j'
  signable _ := True
  functions f f' := f' = f
  errors := Error.Reworded
  texts := Eq
  allowed _ _ _ := True
  ready _ := True
  astray _ := False
  astray_mono _ h := h

namespace Pairing

theorem scopeForm_reworded : reworded.ScopeForm .equal fun _ _ => True where
  lawful := .of_eq (fun _ _ => trivial) Iff.rfl (fun _ _ => rfl) fun h => by rw [h]
  functions := rfl
  scopes := Iff.rfl
  same _ _ := trivial
  jumps _ h _ _ _ := by rw [h]

theorem threadForm_reworded : reworded.ThreadForm id fun _ _ => True :=
  .of_all Iff.rfl (fun t => ⟨t, rfl⟩) (fun _ => trivial) (fun _ => trivial) id

theorem worldForm_reworded : reworded.WorldForm fun _ => True := .of_eq Iff.rfl

theorem lockstep_reworded : reworded.Lockstep :=
  .of_forms scopeForm_reworded (fun _ _ _ => Iff.rfl) threadForm_reworded worldForm_reworded
    (fun _ => id) (fun _ => trivial) (fun _ _ => trivial) (fun _ _ => trivial) Iff.rfl Iff.rfl

theorem laws_reworded (engine : Engine) : reworded.Laws engine where
  toScopeLaws := scopeForm_reworded.steady (fun _ _ _ => Iff.rfl) (fun _ _ => trivial)
    (fun _ _ _ => trivial) fun _ _ _ _ => ⟨fun _ => id, fun _ _ _ => trivial⟩
  toThreadLaws := threadForm_reworded.laws
  toWorldLaws := worldForm_reworded.laws engine lockstep_reworded.threads
  resembles h := h ▸ .refl _
  sync h := by rw [h.1]; exact id
  made _ _ := rfl
  child _ _ := trivial
  default _ _ _ _ := trivial
  refl := Error.Reworded.refl
  located h span := h.located span
  inside h ht name := ht ▸ h.inside name _
  within ht name := ht ▸ (Error.Reworded.refl _).within name _
  text h s := h ▸ rel_self fun _ _ => rfl

end Pairing

/-! ## Other symbols -/

/-- The engine with another symbol table. -/
def Engine.withSymbols (engine : Engine) (symbols : Symbols) : Engine := { engine with symbols }

namespace Eval

variable (engine : Engine) (symbols : Symbols)

theorem readThrough_withSymbols (typeName : String) (ref : Nat) (field : String)
    (names : List String) :
    readThrough (engine.withSymbols symbols) typeName ref field names =
      readThrough engine typeName ref field names := by
  induction names with
  | nil => rfl
  | cons accessor rest ih =>
    unfold readThrough
    rw [ih]
    rfl

theorem readField_withSymbols : readField (engine.withSymbols symbols) = readField engine := by
  funext typeName ref field
  exact readThrough_withSymbols engine symbols typeName ref field _

/-- Writing a field of a host object does not read symbols. -/
theorem writeField_withSymbols : writeField (engine.withSymbols symbols) = writeField engine := by
  funext typeName ref field value
  unfold writeField
  rw [readField_withSymbols]
  rfl

theorem walk_withSymbols : walk (engine.withSymbols symbols) = walk engine := by
  have hchild : child? (engine.withSymbols symbols) = child? engine := by
    funext value name
    unfold child?
    rw [readField_withSymbols]
  funext index segments value
  induction segments generalizing index value with
  | nil => rfl
  | cons segment rest ih =>
    unfold walk
    rw [hchild, funext fun next => ih (index + 1) next]

end Eval

namespace Pairing

open Eval Follows

variable {engine : Engine} {visit visit' : Visit} {p : Prop} {v : Unit} {u : Thread}

/-- A path that cannot be followed cannot be followed with other symbols. -/
theorem alikePaths_reworded (symbols : Symbols) :
    AlikePaths Error.Reworded engine (engine.withSymbols symbols) where
  refl := .refl
  walk := walk_withSymbols engine symbols
  writeField := writeField_withSymbols engine symbols
  notFound _ _ := .notFound ..

/-- **One step.** Only paths read symbols. -/
theorem step_reworded (symbols : Symbols) (limit : Nat) (hv : reworded.Visits visit visit')
    (scope : ScopeId) (n : Node) :
    reworded.Follows True Eq Error.Reworded v u (step engine limit visit scope n)
      (step (engine.withSymbols symbols) limit visit' scope n) := by
  have hl : reworded.Laws engine := laws_reworded engine
  have hrules := lockstep_reworded.rules hl hv
  have hstep : reworded.Follows True Eq Error.Reworded v u (step engine limit visit scope n)
      (step engine limit visit' scope n) :=
    (hl.step hv hrules n).given fun _ => ⟨trivial, trivial⟩
  unfold Eval.step at hstep ⊢
  cases hk : n.kind with
  | path text =>
    refine .map_same _ (hl.waking hrules (fun _ => trivial) ?_)
    exact hl.readPath (alikePaths_reworded symbols) scope text
  | assignment target value =>
    refine bind_same ((hv.evaluate value).given fun _ => ⟨trivial, trivial⟩) fun value => ?_
    refine bind_same (hl.waking hrules (fun _ => trivial) ?_) fun _ => .pure _
    exact hl.writePath (alikePaths_reworded symbols) scope target value
  | _ =>
    rw [hk] at hstep
    exact hstep

/-- **Whole visits.** -/
theorem visits_reworded (symbols : Symbols) (limit : Nat) :
    reworded.Visits (Eval.visit engine limit) (Eval.visit (engine.withSymbols symbols) limit) := by
  induction limit with
  | zero => exact fun _ _ _ _ => Step.Follows.exhaust fun _ _ h => h.2.apart
  | succ limit ih =>
    intro v u scope n
    exact ((laws_reworded engine).locate (step_reworded symbols limit ih scope n) n).given
      fun _ => trivial

end Pairing

/-! ## States -/

namespace State.Reworded

variable {s s' : State}

theorem at_thread (h : s.Reworded s') (hs : s.Sound) : Pairing.reworded.At () s.thread s s' := by
  have hscopes : s.scopes.Paired .equal s.scopes :=
    hs.tidy.wellFormed.paired_self hs.scripts (Nat.zero_le _) (fun _ _ _ => trivial)
      (fun _ _ => rfl) (fun _ _ _ => rfl) (fun _ _ => rfl) fun _ _ => rfl
  rw [h.rest]
  exact ⟨⟨hscopes, trivial⟩, ⟨⟨rfl, rfl⟩, trivial⟩, ⟨rfl, trivial⟩, h.tasks,
    List.forall₂_same.2 fun j _ => ⟨.self fun _ _ => ⟨rfl, trivial⟩⟩, fun _ _ => trivial⟩

theorem of_apart (h : Pairing.reworded.Apart s s') : s.Reworded s' := by
  obtain ⟨v, u, ⟨hscopes, -⟩, ⟨⟨hr, hr'⟩, -⟩, ⟨hworld, -⟩, htasks, hparked, -⟩ := h
  refine ⟨?_, htasks⟩
  rw [hscopes.eq (fun _ _ => id) (fun _ _ _ => id) fun _ _ _ => id, hr', ← hr, hworld,
    eq_of_forall₂ (fun _ _ => Job.Paired.eq fun _ _ => And.left) hparked]

end State.Reworded

/-- Runs that follow each other end in the same way, but for messages. -/
theorem Pairing.Follows.reworded {α : Type} {p : Prop} {v : Unit} {u : Thread} {x x' : Eval α}
    (hx : Pairing.reworded.Follows p Eq Error.Reworded v u x x') (hp : p) {s s' : State}
    (hs : Pairing.reworded.At v u s s') : (x s).Reworded (x' s') := by
  have hends := hx.ends s s' ⟨hp, hs⟩
  generalize x s = o at hends ⊢
  generalize x' s' = o' at hends ⊢
  cases hends with
  | ok h => exact h.1 ▸ .ok (.of_apart h.2.apart)
  | error h => exact .error h.1 (.of_apart h.2.apart)
  | crashed h => exact .crashed (.of_apart h)
  | blocked h => exact .blocked (.of_apart h)
  | exhausted h => exact .exhausted (.of_apart h)
  | astray h => exact h.elim

/-- **Symbols show in messages only.** From a state that a host can reach, and another one that
differs from it at most in messages, a program runs with any two symbol tables in the same way: it
gives the same value or an error that differs at most in its message, and it leaves the same scopes,
heap, prints, tasks and jobs, but for the messages of errors that tasks have ended with. The tasks that
it leaves behind go on in the same way, too. -/
theorem Engine.run_reworded {engine : Engine} {s s' : State} (hs : engine.Reachable s)
    (h : s.Reworded s') (symbols : Symbols) :
    (∀ program, (engine.run program s).Reworded ((engine.withSymbols symbols).run program s')) ∧
      (engine.settle s).Reworded ((engine.withSymbols symbols).settle s') := by
  have hvisits : Pairing.reworded.Visits engine.visit (engine.withSymbols symbols).visit :=
    Pairing.visits_reworded symbols Eval.patience
  have hat := h.at_thread (Engine.Reachable.sound hs)
  refine ⟨fun program => (hvisits.evaluate program).reworded ⟨trivial, trivial⟩ hat, ?_⟩
  have hsettle : Pairing.reworded.Follows True Eq Error.Reworded () s.thread engine.settle
      (engine.withSymbols symbols).settle :=
    Pairing.lockstep_reworded.settle (Pairing.laws_reworded engine) hvisits
  exact hsettle.reworded trivial hat

/-- Awaits a task that fails because an object has no field of a name. -/
def Node.awaitingLost : Node :=
  let node (id : Nat) (kind : NodeKind) : Node := ⟨id, .origin, kind⟩
  node 0 (.program [
    node 1 (.variableDeclaration "o" false none (some (node 2 (.objectLiteral [])))),
    node 3 (.function "lost" true none none (node 4 (.block [node 5 (.path "o:a")]))),
    node 6 (.await (node 7 (.call "lost" [] none)))])

/-- The table that shows the separator of paths as a dot. -/
def Symbols.dotted : Symbols := Symbols.empty.withToken "COLON" "."

theorem Engine.run_reworded_awaitingLost :
    let run := Engine.bare.run Node.awaitingLost .initial
    let dotted := (Engine.bare.withSymbols .dotted).run Node.awaitingLost .initial
    Engine.bare.Reachable .initial ∧ State.initial.Reworded .initial ∧
      run.failure?.map (·.message) = some "Variable \"o:a\" was not found." ∧
      dotted.failure?.map (·.message) = some "Variable \"o.a\" was not found." ∧
      run.failure?.map (·.code) = some "RUNTIME_VARIABLE_NOT_FOUND" ∧ run.Reworded dotted := by
  have hreach : Engine.bare.Reachable .initial := .refl
  have hself : State.initial.Reworded .initial := .refl _
  exact ⟨hreach, hself, by decide +kernel, by decide +kernel, by decide +kernel,
    (run_reworded hreach hself .dotted).1 Node.awaitingLost⟩

end TreeScript
