import TreeScript.Proofs.Eval.Signals
import TreeScript.Proofs.Regime.Visit
import TreeScript.Proofs.Scope.Teardown

/-!
# Runs of one program

A run that starts with nothing bound visits nodes of its program only: the functions that scopes bind
(`ScopeTree.Declared`), and those that tasks wait to carry out, are declared by the program, and their
bodies and default values are nodes of it (`Regime.NodeLaws.of_program`).
-/

namespace TreeScript

/-- The functions of the scopes are declared by the program: the scopes are proper but for their
tasks. -/
def ScopeTree.Declared (program : Node) (t : ScopeTree) : Prop :=
  t.All fun c => ({ c with pending := 0 } : Scope).Proper program

namespace ScopeTree.Declared

variable {program : Node} {t u : ScopeTree} {id : ScopeId}

theorem initial : ScopeTree.initial.Declared program := fun x c hc => by
  have hproper : c.Proper program := Orderly.initial.proper x c hc
  exact ⟨rfl, hproper.functions, hproper.members⟩

theorem edit {may : ScopeId → Prop} (h : t.Declared program) (he : t.Edit may program.Declares u) :
    u.Declared program := by
  cases he with
  | same => exact h
  | declaration => exact All.modify h fun _ _ hc => (harmless_locals (·.insert _ _)).proper _ hc
  | assignment => exact All.modify h fun _ _ hc => (harmless_locals (·.insert _ _)).proper _ hc
  | function _ _ hf => exact All.modify h fun _ _ hc => (harmless_function hf _).proper _ hc
  | implementation _ _ _ hi =>
    exact All.modify h fun _ _ hc =>
      (harmless_implementation (fun name f hf => (hi name f hf).1) _).proper _ hc
  | markers => exact All.modify h fun _ _ hc => ⟨rfl, hc.functions, hc.members⟩

theorem create {inner : ScopeId} (h : t.Declared program) (hc : t.create id = .ok (inner, u)) :
    u.Declared program :=
  All.create h (fun _ _ => .fresh _ _) (fun _ _ hc => ⟨rfl, hc.functions, hc.members⟩) hc

theorem detach {s : Scope} (h : t.Declared program) (hs : t.find? id = some s) :
    (t.detach id s).Declared program :=
  All.detach h fun _ _ _ _ hc => hc.absorb (h id s hs) id

theorem release {r : Release} (h : t.Declared program) (hr : t.release id = .ok (r, u)) :
    u.Declared program :=
  of_release (fun _ _ _ h hs => detach h hs)
    (fun _ _ _ h _ => All.mark h (fun _ hc => ⟨rfl, hc.functions, hc.members⟩)
      fun _ _ hc => ⟨rfl, hc.functions, hc.members⟩) h hr

theorem beginTask (h : t.Declared program) (hu : t.beginTask id = .ok u) : u.Declared program := by
  obtain ⟨c, -, hu⟩ := find?_of_get_bind hu
  cases hu
  exact All.modify h fun _ _ hc => hc

theorem endTask (h : t.Declared program) (id : ScopeId) : (t.endTask id).Declared program :=
  of_endTask (fun _ _ _ h hs => detach h hs) (fun _ _ h => All.modify h fun _ _ hc => hc) h

theorem callable {name : String} {c : Callable} (h : t.Declared program)
    (hc : t.callable? id name false = some c) : ∃ f, c = .script f ∧ program.Declares f := by
  obtain ⟨x, s, member, hs, hc⟩ := exists_of_callable? hc
  exact (h x s hs).callable hc

end ScopeTree.Declared

/-- The names of calls stand for functions of the program. -/
theorem Regime.callee_of_declared {R : Regime} {program : Node}
    (hdeclared : ∀ f, program.Declares f → R.declared f) {t : ScopeTree} {id : ScopeId} {name : String}
    {c : Callable} (h : t.Declared program) (hc : t.callable? id name false = some c) : R.Callee c := by
  obtain ⟨f, rfl, hf⟩ := h.callable hc
  exact hdeclared f hf

/-- A regime of all nodes of a program. -/
theorem Regime.NodeLaws.of_program {R : Regime} {program : Node}
    (hnode : ∀ n, R.node n ↔ n ∈ program.descendants)
    (hdeclared : ∀ f, R.declared f ↔ program.Declares f)
    (hplace : ∀ n ∈ program.descendants, R.place n.span) : R.NodeLaws where
  child hn hm := (hnode _).2 (Node.descendants_trans ((hnode _).1 hn) (Node.child_mem_descendants hm))
  made hn hf := (hdeclared _).2 ⟨_, (hnode _).1 hn, _, _, _, hf⟩
  body hf := by
    have hf := (hdeclared _).1 hf
    exact (hnode _).2 (Node.descendants_trans hf.kind.1 (Node.child_mem_descendants hf.body_mem))
  default hf hp hm := by
    obtain ⟨n, hn, hm⟩ := Node.Declares.default_mem ((hdeclared _).1 hf) hp hm
    have hchild := Node.child_mem_descendants (n.kind.operands_subset_children hm)
    exact (hnode _).2 (Node.descendants_trans hn hchild)
  declaration hf := hplace _ ((hdeclared _).1 hf).kind.1

/-! ## Errors of runs -/

/-- The job calls a function that was declared. -/
def Job.Calls (declared : ScriptFunction → Prop) (job : Job) : Prop :=
  ∃ scope f bound returns, job.work = .call scope f bound returns ∧ declared f

/-- A run of a program fails with errors of one kind, also in its tasks. -/
def Regime.failing (program : Node) (error : Error → Prop) (place : Span → Prop) (breaks : Prop) :
    Regime where
  Stage := Unit
  At _ s := s.scopes.Declared program ∧
    (∀ (i : Nat) task e, s.tasks[i]? = some task → task.outcome = some (.error e) → error e) ∧
    ∀ job ∈ s.parked, job.Calls program.Declares
  reserve g _ := g
  running g _ := g
  node n := n ∈ program.descendants
  declared := program.Declares
  runnable job := job.Calls program.Declares
  error := error
  place := place
  breaks := breaks

namespace Regime

variable {program : Node} {error : Error → Prop} {place : Span → Prop} {breaks : Prop}

theorem stateLaws_failing : (failing program error place breaks).StateLaws where
  rests := id
  world := id
  next := id
  thread h _ := h
  engage h _ _ _ := ⟨(), ⟨id, id, fun h _ => h, id⟩, h⟩

theorem scopeLaws_failing : (failing program error place breaks).ScopeLaws where
  above := id
  edit h he := ⟨h.1.edit he, h.2⟩
  found h hc := callee_of_declared (fun _ => id) h.1 hc
  create h _ hc := ⟨(), ⟨trivial, fun h hr => ⟨h.1.release hr, h.2⟩, id, id⟩, h.1.create hc, h.2⟩

theorem taskLaws_failing : (failing program error place breaks).TaskLaws where
  launched hf task scope callId bound returns counted := ⟨scope, _, bound, returns, rfl, hf⟩
  given hjob := by
    obtain ⟨scope, f, bound, returns, hwork, -⟩ := hjob
    rw [hwork]
    trivial
  works hjob hwork := by
    obtain ⟨scope, f, bound, returns, hcall, hf⟩ := hjob
    cases hwork.symm.trans hcall
    exact ⟨trivial, hf⟩
  spawned h _ hu _ label := by
    refine ⟨h.1.beginTask hu, fun i task e hi he => ?_, h.2.2⟩
    rw [Array.getElem?_push] at hi
    split at hi
    · cases hi
      cases he
    · exact h.2.1 i task e hi he
  start := id
  finish {_ _ t job} _ h r hr := by
    refine ⟨h.1.endTask _, fun i task e hi he => ?_, h.2.2⟩
    have hi : (t.tasks.modify (job.task - 1) fun task => task.store r)[i]? = some task := hi
    rw [Array.getElem?_modify] at hi
    split at hi
    · obtain ⟨task', -, rfl⟩ := Option.map_eq_some_iff.1 hi
      exact hr e (Option.some.inj he)
    · exact h.2.1 i task e hi he
  park h hjob := by
    refine ⟨h.1, h.2.1, fun job hmem => ?_⟩
    rcases List.mem_append.1 hmem with hmem | hmem
    · exact h.2.2 job hmem
    · exact List.mem_singleton.1 hmem ▸ hjob
  take h := ⟨⟨h.1, h.2.1, fun _ hmem => by cases hmem⟩, h.2.2⟩
  outcome h hi he := h.2.1 _ _ _ hi he

theorem laws_failing {engine : Engine} (hplace : ∀ n ∈ program.descendants, place n.span)
    (herrors : (failing program error place breaks).ErrorLaws engine) :
    (failing program error place breaks).Laws engine :=
  { stateLaws_failing, scopeLaws_failing, taskLaws_failing,
    NodeLaws.of_program (fun _ => .rfl) (fun _ => .rfl) hplace, herrors with }

theorem failing_initial : (failing program error place breaks).At () .initial :=
  ⟨.initial, fun _ _ _ hi => (by cases hi), fun _ hmem => (by cases hmem)⟩

end Regime

end TreeScript
