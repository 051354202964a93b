import TreeScript.Proofs.Identified
import TreeScript.Proofs.Regime.Program

/-!
# Places of errors

An error is put at the innermost node whose visit it ends, unless it has a place already. So the place
that a failed run reports is that of a node of the program, as long as nothing below the nodes makes up
a place: there is no node at hand where an accessor of a host field is called, and its failure is put
at the origin.

* `Error.Placed`: an error has no place yet, that of a node, or comes from an accessor.
* `Regime.positions`: all errors of a run are placed, also those that tasks keep, since the functions
  that are bound, and those that wait to be carried out, are declared by the program.
* `Engine.run_error_placed`: the place of the error of a failed run.
* `Engine.run_error_misplaced`: the failure of an accessor is reported where no node stands.
-/

namespace TreeScript

/-! ## Errors -/

/-- The error is the failure of an accessor, which is put at the origin. -/
def Error.OfAccessor (engine : Engine) (e : Error) : Prop :=
  engine.policy = .strict ∧ ∃ typeName field, ∃ callee ∈ Eval.accessors typeName field,
    ∃ n ∈ engine.natives callee, ∃ failure, e = Eval.hostError callee n .origin failure

/-- The error has no place yet, that of a node of the program, or comes from an accessor. -/
def Error.Placed (engine : Engine) (program : Node) (e : Error) : Prop :=
  (∀ span, e.span = some span → ∃ n ∈ program.descendants, n.span = span) ∨ e.OfAccessor engine

/-- The errors of a resolver have no place. -/
def Resolver.Unlocated (resolver : Resolver) : Prop :=
  ∀ callee candidates values e, resolver callee candidates values = .error e → e.span = none

theorem Overload.unlocated_select : Resolver.Unlocated Overload.select := by
  intro callee candidates values e he
  unfold Overload.select at he
  split at he <;> cases he <;> rfl

namespace Error.Placed

variable {engine : Engine} {program : Node} {e : Error}

theorem of_span (h : e.span = none) : e.Placed engine program := .inl fun span hspan => by
  rw [h] at hspan
  cases hspan

theorem located {span : Span} (h : e.Placed engine program)
    (hspan : ∃ n ∈ program.descendants, n.span = span) : (e.located span).Placed engine program := by
  rcases h with h | ⟨hpolicy, typeName, field, callee, hcallee, n, hn, failure, rfl⟩
  · refine .inl fun span' hspan' => ?_
    rcases Option.or_eq_some_iff.1 hspan' with he | ⟨-, he⟩
    · exact h span' he
    · cases he
      exact hspan
  · -- The origin is a place too, and it stays.
    exact .inr ⟨hpolicy, typeName, field, callee, hcallee, n, hn, failure, rfl⟩

theorem within (h : e.Placed engine program) (hnone : e.invocable = none) (name text : String) :
    (e.within name text).Placed engine program := by
  rcases h with h | ⟨-, typeName, field, callee, -, n, -, failure, rfl⟩
  · exact .inl h
  · cases hnone

end Error.Placed

/-! ## Runs -/

/-- The errors of a run are placed, also those that tasks keep. -/
def Regime.positions (engine : Engine) (program : Node) : Regime :=
  .failing program (·.Placed engine program) (fun span => ∃ n ∈ program.descendants, n.span = span) True

namespace Regime

variable {engine : Engine} {program : Node}

theorem errorLaws_positions (hresolver : engine.resolver.Unlocated) :
    (positions engine program).ErrorLaws engine where
  of _ := .of_span rfl
  located he hspan := he.located hspan
  within he hnone name text := he.within hnone name text
  node hn := ⟨_, hn, rfl⟩
  resolver he := .of_span (hresolver _ _ _ _ he)
  steady := .inl trivial
  accessor hfast hsafe := fun hcallee n hn failure =>
    .inr ⟨FieldPolicy.eq_strict hfast hsafe, _, _, _, hcallee, n, hn, failure, rfl⟩

theorem laws_positions (hresolver : engine.resolver.Unlocated) :
    (positions engine program).Laws engine :=
  laws_failing (fun n hn => ⟨n, hn, rfl⟩) (errorLaws_positions hresolver)

theorem positions_initial : (positions engine program).At () .initial := failing_initial

end Regime

/-- The error of a visit has a place, if only that of the node that is visited. -/
theorem Eval.isSome_span_of_visit {engine : Engine} {limit : Nat} {scope : ScopeId} {n : Node}
    {e : Error} {s t : State} (h : Eval.visit engine limit scope n s = .error e t) :
    e.span.isSome := by
  cases limit with
  | zero => cases h
  | succ limit =>
    unfold Eval.visit Step.mapError Step.mapErrorWith at h
    split at h <;> cases h
    exact Error.isSome_span_located _ n.span

namespace Engine

theorem visit_of_run_error {engine : Engine} {program : Node} {e : Error} {s t : State}
    (h : engine.run program s = .error e t) : engine.visit ScopeTree.root program s = .error e t := by
  have h : (engine.visit ScopeTree.root program s).andThen (fun flow t => .ok flow.toValue t) =
    .error e t := h
  cases hvisit : engine.visit ScopeTree.root program s with
  | error e' t' =>
    rw [hvisit] at h
    cases h
    rfl
  | ok | crashed | blocked | exhausted =>
    rw [hvisit] at h
    cases h

/-- **Places of errors.** A run that fails reports the place of a node of the program, unless it ends
with the failure of an accessor. -/
theorem run_error_placed {engine : Engine} (hresolver : engine.resolver.Unlocated)
    {program : Node} {e : Error} {s : State} (h : engine.run program .initial = .error e s) :
    (∃ n ∈ program.descendants, e.span = some n.span) ∨ e.OfAccessor engine := by
  have hvisit := visit_of_run_error h
  have hlaws : (Regime.positions engine program).Laws engine := Regime.laws_positions hresolver
  have hkeeps := hlaws.visits Eval.patience () ScopeTree.root program trivial
    program.self_mem_descendants
  rcases (hkeeps.error_of Regime.positions_initial hvisit).1 with hspan | haccessor
  · obtain ⟨span, he⟩ := Option.isSome_iff_exists.1 (Eval.isSome_span_of_visit hvisit)
    obtain ⟨n, hn, rfl⟩ := hspan span he
    exact .inl ⟨n, hn, he⟩
  · exact .inr haccessor

end Engine

/-- Waits for a task that divides by zero. -/
def Node.dividingInTask : Node :=
  let node (id line column : Nat) (kind : NodeKind) : Node := ⟨id, .point line column, kind⟩
  node 0 1 1 (.program [
    node 1 2 1 (.function "f" true none none (node 2 2 16 (.block [
      node 3 3 5 (.binary .divide (node 4 3 5 (.literal (.int 1))) (node 5 3 9 (.literal (.int 0))))]))),
    node 6 5 1 (.await (node 7 5 7 (.call "f" [] none)))])

/-- The place of the error is that of the division, not that of the `await`. -/
theorem Engine.run_error_placed_dividingInTask :
    Resolver.Unlocated Engine.core.resolver ∧
      ∃ e s, Engine.core.run Node.dividingInTask .initial = .error e s ∧
        e.span = some (.point 3 5) ∧
        ((∃ n ∈ Node.dividingInTask.descendants, e.span = some n.span) ∨ e.OfAccessor .core) := by
  have hfailure : (Engine.core.run Node.dividingInTask .initial).failure? =
      some ⟨.divisionByZero, some (.point 3 5), some ⟨"f", "async f() -> any"⟩⟩ := by decide +kernel
  obtain ⟨s, hs⟩ := Outcome.exists_of_failure? hfailure
  exact ⟨Overload.unlocated_select, _, s, hs, rfl, run_error_placed Overload.unlocated_select hs⟩

/-- An engine with host objects whose field `x` cannot be read, which is an error. -/
def Engine.jammed : Engine :=
  { Engine.bare with
    host := (Registry.empty.add (.creator "Box" [] (.create "Box" []))).add
      ⟨.member "Box" "get_x" false, ⟨[], .any, false⟩, .refuse (.invocation "stuck")⟩
    policy := .strict }

/-- Makes such an object and reads its field. -/
def Node.readingJammed : Node :=
  let node (id line column : Nat) (kind : NodeKind) : Node := ⟨id, .point line column, kind⟩
  node 1 2 1 (.program [
    node 2 3 1 (.variableDeclaration "b" false none (some (node 3 3 5 (.call "Box::new" [] none)))),
    node 4 4 1 (.path "b:x")])

/-- The failure of the accessor is reported at a place where no node of the program stands. -/
theorem Engine.run_error_misplaced :
    Resolver.Unlocated Engine.jammed.resolver ∧
      ∃ e s, Engine.jammed.run Node.readingJammed .initial = .error e s ∧
        e.span = some .origin ∧ ∀ n ∈ Node.readingJammed.descendants, e.span ≠ some n.span := by
  have hfailure : (Engine.jammed.run Node.readingJammed .initial).failure? =
      some ⟨.hostCall "Box::get_x" (.invocation "stuck"), some .origin,
        some ⟨"Box::get_x", "instance Box::get_x() -> any"⟩⟩ := by decide +kernel
  obtain ⟨s, hs⟩ := Outcome.exists_of_failure? hfailure
  exact ⟨Overload.unlocated_select, _, s, hs, rfl, by decide⟩

end TreeScript
