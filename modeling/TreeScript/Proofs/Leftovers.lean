import TreeScript.Proofs.Scope.Markers
import TreeScript.Proofs.Store

/-!
# Markers that earlier programs left

A program runs in the root, and so the markers that programs before it have left there are among
those that it reads. They make a difference: if one of them is the id of a jump of the program, then
the statements behind it are skipped although nobody has jumped.

What a program reads at the root are the ids of jumps: of its own ones, and of those in default values
of functions, since default values are evaluated where the function is called. If two states are equal
but for the markers at the root, and agree on those ids, then a run does the same in both, and what it
leaves is again equal but for the markers at the root.
-/

namespace TreeScript

/-! ## The jumps that a run can read at the root -/

/-- The ids of the jumps in the node are among `jumps`. -/
def Node.JumpsIn (n : Node) (jumps : Nat → Prop) : Prop :=
  ∀ m ∈ n.descendants, m.jump?.isSome → jumps m.id

/-- The ids of the jumps in default values of functions that the node declares are among `jumps`. -/
def Node.DefaultsIn (n : Node) (jumps : Nat → Prop) : Prop :=
  ∀ m ∈ n.descendants, ∀ parameters, m.kind = .parameterList parameters →
    ∀ p ∈ parameters, ∀ d, p.default = some d → d.JumpsIn jumps

/-- The ids of the jumps in default values, those of the function itself and those of functions that
are declared in it, are among `jumps`. -/
structure ScriptFunction.DefaultsIn (f : ScriptFunction) (jumps : Nat → Prop) : Prop where
  own : ∀ p ∈ f.parameters, ∀ d, p.default = some d → d.JumpsIn jumps
  body : f.body.DefaultsIn jumps

/-- The ids of the jumps in default values of the functions that can be called in a state are among
`jumps`. -/
structure State.DefaultsIn (s : State) (jumps : Nat → Prop) : Prop where
  functions : ∀ {id c name f}, s.scopes.find? id = some c →
    c.functions.find? name = some (.script f) → f.DefaultsIn jumps
  members : ∀ {id c name i member f}, s.scopes.find? id = some c →
    c.implementations.find? name = some i → i.functions.find? member = some f → f.DefaultsIn jumps
  parked : ∀ job ∈ s.parked, ∀ f, job.work.function? = some f → f.DefaultsIn jumps

namespace Node

variable {n m : Node} {jumps : Nat → Prop}

theorem JumpsIn.of_mem (h : n.JumpsIn jumps) (hm : m ∈ n.descendants) : m.JumpsIn jumps :=
  fun _ hk => h _ (descendants_trans hm hk)

theorem DefaultsIn.of_mem (h : n.DefaultsIn jumps) (hm : m ∈ n.descendants) : m.DefaultsIn jumps :=
  fun _ hk => h _ (descendants_trans hm hk)

theorem default_mem_children {parameters : List ParameterNode} {p : ParameterNode} {d : Node}
    (hm : m.kind = .parameterList parameters) (hp : p ∈ parameters) (hd : p.default = some d) :
    d ∈ m.children := by
  unfold children
  rw [hm]
  exact List.mem_filterMap.2 ⟨p, hp, hd⟩

/-- Default values are below the node. -/
theorem JumpsIn.defaultsIn (h : n.JumpsIn jumps) : n.DefaultsIn jumps := by
  intro m hm parameters hk p hp d hd
  exact h.of_mem (descendants_trans hm (child_mem_descendants (default_mem_children hk hp hd)))

theorem DefaultsIn.of_declares {f : ScriptFunction} (h : n.DefaultsIn jumps) (hf : n.Declares f) :
    f.DefaultsIn jumps := by
  obtain ⟨hmem, -⟩ := hf.kind
  refine ⟨fun p hp d hd => ?_, h.of_mem (descendants_trans hmem (child_mem_descendants hf.body_mem))⟩
  obtain ⟨m, hm, parameters, hk, hpm⟩ := Node.Declares.parameter_mem hf hp
  exact h m hm parameters hk p hpm d hd

end Node

/-! ## The pairing -/

/-- The markers of two roots agree on `jumps`, and those of two other scopes are equal. -/
def Facets.agreeing (jumps : Nat → Prop) : Facets where
  low := 0
  locals _ _ := True
  functions f f' := f' = f ∧ f.DefaultsIn jumps
  executed id e e' := ∀ k, (id = ScopeTree.root → jumps k) → (e'.contains k ↔ e.contains k)
  pending _ a b := b = a

theorem Facets.lawful_agreeing (jumps : Nat → Prop) : (agreeing jumps).Lawful where
  fresh _ := ⟨trivial, fun _ _ => Iff.rfl, rfl⟩
  insert _ _ _ := trivial
  assign _ _ _ := trivial
  merge _ _ _ := trivial
  depth h := by rw [h.1]
  add node h k hk := by
    rw [KeySet.contains_add, KeySet.contains_add, h k hk]
  removeAll nodes h k hk := by
    rw [KeySet.contains_removeAll, KeySet.contains_removeAll, h k hk]
  union hc h h' k hk := by
    rw [KeySet.contains_union, KeySet.contains_union, h k hk, h' k fun hroot => absurd hroot hc]

/-- Two runs in states that are equal but for the markers at the root, which agree on `jumps`. -/
def Pairing.agreeing (jumps : Nat → Prop) : Pairing where
  View := Unit
  Line := Thread
  scopes _ t t' := t.Paired (.agreeing jumps) t' ∧ True
  threads u _ r r' := (r = u ∧ r' = u) ∧ True
  world w w' := w' = w ∧ True
  heap := @World.heap_eq_of_eq_and True
  tasks a a' := List.Forall₂ (Task.Paired Eq) a.toList a'.toList
  jobs j j' := j.Paired (fun f f' => (f' = f ∧ f.DefaultsIn jumps) ∧ True) j'
  signable _ := True
  functions f f' := f' = f ∧ f.DefaultsIn jumps
  errors := Eq
  texts := Eq
  allowed _ scope n := (scope = ScopeTree.root → n.JumpsIn jumps) ∧ n.DefaultsIn jumps
  ready _ := True
  astray _ := False
  astray_mono _ h := h

namespace Pairing

variable {jumps : Nat → Prop}

theorem scopeForm_agreeing : (agreeing jumps).ScopeForm (.agreeing jumps) fun _ _ => True where
  lawful := Facets.lawful_agreeing jumps
  functions := rfl
  scopes := Iff.rfl
  same _ _ := trivial
  jumps hn h m hm hjump := Bool.eq_iff_iff.2 (h m.id fun hroot => hn.1 hroot m hm hjump)

theorem threadForm_agreeing : (agreeing jumps).ThreadForm id fun _ _ => True :=
  .of_all Iff.rfl (fun t => ⟨t, rfl⟩) (fun _ => trivial) (fun _ => trivial) And.left

theorem worldForm_agreeing : (agreeing jumps).WorldForm fun _ => True := .of_eq Iff.rfl

theorem lockstep_agreeing : (agreeing jumps).Lockstep :=
  .of_forms scopeForm_agreeing (fun _ _ _ => Iff.rfl) threadForm_agreeing worldForm_agreeing
    (fun _ => id) (fun _ => trivial) (fun _ _ => trivial) (fun _ _ => trivial) Iff.rfl Iff.rfl

theorem laws_agreeing (engine : Engine) : (agreeing jumps).Laws engine where
  toScopeLaws := scopeForm_agreeing.steady (fun _ _ _ => Iff.rfl) (fun _ _ => trivial)
    (fun _ _ _ => trivial) fun _ _ _ hinner =>
      ⟨fun _ hn => ⟨fun h => absurd h hinner, hn.2⟩, fun _ _ hf => ⟨fun h => absurd h hinner, hf.2.body⟩⟩
  toThreadLaws := threadForm_agreeing.laws
  toWorldLaws := worldForm_agreeing.laws engine lockstep_agreeing.threads
  toFunctionLaws := {
    resembles := fun h => h.1 ▸ .refl _
    sync := fun h => by rw [h.1.1]; exact id
    made := fun hn hf => ⟨rfl, hn.2.of_declares ⟨_, Node.self_mem_descendants _, _, _, _, hf⟩⟩
    child := fun hn hm => ⟨fun h => (hn.1 h).of_mem (Node.child_mem_descendants hm),
      hn.2.of_mem (Node.child_mem_descendants hm)⟩
    default := fun _ hf hp hm => ⟨fun _ => hf.2.own _ hp _ hm, (hf.2.own _ hp _ hm).defaultsIn⟩ }
  toErrorLaws := .of_eq rfl rfl And.left

theorem visits_agreeing (engine : Engine) : (agreeing jumps).Visits engine.visit engine.visit :=
  (laws_agreeing engine).visits (fun _ _ hv => lockstep_agreeing.rules (laws_agreeing engine) hv) _

end Pairing

/-! ## States -/

/-- Two states are equal but for the markers at the root, which agree on `jumps`. -/
structure State.Agrees (jumps : Nat → Prop) (s s' : State) : Prop where
  rest : s' = { s with scopes := s'.scopes }
  scopes : ScopeTree.Remarked ScopeTree.root s.scopes s'.scopes
  markers : ∀ {c c'}, s.scopes.find? ScopeTree.root = some c →
    s'.scopes.find? ScopeTree.root = some c' → ∀ k, jumps k →
      (c'.executed.contains k ↔ c.executed.contains k)

namespace State.Agrees

variable {jumps : Nat → Prop} {s s' : State}

/-- The scopes of states that agree are paired. -/
theorem paired (h : s.Agrees jumps s') (hs : s.Sound) (hd : s.DefaultsIn jumps) :
    s.scopes.Paired (.agreeing jumps) s'.scopes := by
  have hself : s.scopes.Paired (.agreeing jumps) s.scopes :=
    hs.tidy.wellFormed.paired_self hs.scripts (Nat.zero_le _) (fun _ _ _ => trivial)
      (fun hc hf => ⟨rfl, hd.functions hc hf⟩) (fun hc hi hf => ⟨rfl, hd.members hc hi hf⟩) (fun _ _ _ _ => Iff.rfl)
      fun _ _ => rfl
  refine ⟨h.scopes.next, hself.low, hself.base, hself.orphan, fun id => ?_⟩
  by_cases hid : id = ScopeTree.root
  · subst hid
    obtain ⟨c, hc, -⟩ := hs.tidy.wellFormed.root
    obtain ⟨c', hc', heq⟩ := h.scopes.self c hc
    have hcc := hself.scopes ScopeTree.root
    rw [hc] at hcc
    rw [hc, hc']
    cases hcc with
    | some hcc =>
      have hmarkers := h.markers hc hc'
      refine .some ?_
      rw [heq]
      exact { hcc with executed := fun k hk => hmarkers k (hk rfl) }
  · rw [h.scopes.other id hid]
    exact hself.scopes id

theorem at_thread (h : s.Agrees jumps s') (hs : s.Sound) (hd : s.DefaultsIn jumps) :
    (Pairing.agreeing jumps).At () s.thread s s' := by
  rw [h.rest]
  exact ⟨⟨h.paired hs hd, trivial⟩, ⟨⟨rfl, rfl⟩, trivial⟩, ⟨rfl, trivial⟩,
    List.forall₂_same.2 fun t _ => .self t,
    List.forall₂_same.2 fun j hj => ⟨.self fun f hf => ⟨⟨rfl, hd.parked j hj f hf⟩, trivial⟩⟩,
    fun _ _ => trivial⟩

theorem of_apart (h : (Pairing.agreeing jumps).Apart s s') : s.Agrees jumps s' := by
  obtain ⟨v, u, ⟨hscopes, -⟩, ⟨⟨hr, hr'⟩, -⟩, ⟨hworld, -⟩, htasks, hparked, -⟩ := h
  refine ⟨?_, ⟨hscopes.next, fun id hid => ?_, fun c hc => ?_, fun hnone => ?_⟩, fun hc hc' k hk => ?_⟩
  · rw [hr', ← hr, hworld, Array.toList_inj.1 (eq_of_forall₂ (fun _ _ => Task.Paired.eq) htasks),
      eq_of_forall₂ (fun _ _ => Job.Paired.eq fun _ _ h => h.1.1) hparked]
  · have hcc := hscopes.scopes id
    generalize s.scopes.find? id = a at hcc
    generalize ScopeTree.find? _ id = a' at hcc ⊢
    cases hcc with
    | none => rfl
    | some hcc =>
      rw [hcc.eq (fun _ _ h => h.1) hcc.pending,
        KeySet.ext_contains fun k => hcc.executed k fun hroot => absurd hroot hid]
  · have hcc := hscopes.scopes ScopeTree.root
    rw [hc] at hcc
    generalize ScopeTree.find? _ ScopeTree.root = a' at hcc ⊢
    cases hcc with
    | some hcc => exact ⟨_, rfl, hcc.eq (fun _ _ h => h.1) hcc.pending⟩
  · have hcc := hscopes.scopes ScopeTree.root
    rw [hnone] at hcc
    generalize ScopeTree.find? _ ScopeTree.root = a' at hcc ⊢
    cases hcc
    rfl
  · have hcc := hscopes.scopes ScopeTree.root
    rw [hc] at hcc
    dsimp only at hc'
    rw [hc'] at hcc
    cases hcc with
    | some hcc => exact hcc.executed k fun _ => hk

end State.Agrees

/-- **Markers that earlier programs left.** Two states of which a host can reach the first are equal
but for the markers at the root. If these agree on the ids of the jumps of a program and of those in
default values of functions that can be called, then a run of the program ends in both in the same way,
and in states that are again equal but for the markers at the root. -/
theorem Engine.run_agrees {engine : Engine} {jumps : Nat → Prop} {program : Node} {s s' : State}
    (hs : engine.Reachable s) (hprogram : program.JumpsIn jumps) (hd : s.DefaultsIn jumps)
    (h : s.Agrees jumps s') :
    (engine.run program s).Alike (fun _ => State.Agrees jumps) (State.Agrees jumps)
      (engine.run program s') := by
  have hvisits : (Pairing.agreeing jumps).Visits engine.visit engine.visit :=
    Pairing.visits_agreeing engine
  have hat := h.at_thread (Engine.Reachable.sound hs) hd
  have halike : (engine.run program s).Alike (fun _ => (Pairing.agreeing jumps).At () s.thread)
      (Pairing.agreeing jumps).Apart (engine.run program s') :=
    (hvisits.evaluate program).alike ⟨⟨fun _ => hprogram, hprogram.defaultsIn⟩, trivial⟩
      (fun _ => id) hat
  exact halike.mono (fun _ _ _ h => .of_apart h.apart) fun _ _ => .of_apart

/-- A state in which nothing has happened, but for a marker that is left at the root. -/
def State.leftover (k : Nat) : State :=
  { State.initial with
    scopes := ScopeTree.initial.modify ScopeTree.root fun c =>
      { c with executed := KeySet.add c.executed k } }

theorem State.defaultsIn_initial (jumps : Nat → Prop) : State.initial.DefaultsIn jumps := by
  refine ⟨fun hc hf => ?_, fun hc hi _ => ?_, fun job hjob => nomatch hjob⟩
  · cases ScopeTree.eq_fresh_of_find?_initial hc
    cases hf
  · cases ScopeTree.eq_fresh_of_find?_initial hc
    cases hi

theorem State.agrees_leftover (k : Nat) : State.initial.Agrees (· ≠ k) (.leftover k) := by
  refine ⟨rfl, ScopeTree.remarked_modify _ _ (KeySet.add · k), fun {c c'} hc hc' j hj => ?_⟩
  have hmodified : (State.leftover k).scopes.find? ScopeTree.root =
      some { c with executed := KeySet.add c.executed k } := ScopeTree.find?_modify_self hc _
  rw [hmodified] at hc'
  cases hc'
  rw [KeySet.contains_add, or_iff_right hj]

theorem Engine.run_agrees_returningFromLoop :
    Engine.bare.Reachable .initial ∧ Node.returningFromLoop.JumpsIn (· ≠ 99) ∧
      State.initial.DefaultsIn (· ≠ 99) ∧ State.initial.Agrees (· ≠ 99) (.leftover 99) ∧
      (Engine.bare.run Node.returningFromLoop .initial).returned?.isSome ∧
      (Engine.bare.run Node.returningFromLoop .initial).Alike (fun _ => State.Agrees (· ≠ 99))
        (State.Agrees (· ≠ 99)) (Engine.bare.run Node.returningFromLoop (.leftover 99)) := by
  have hreach : Engine.bare.Reachable .initial := .refl
  have hjumps : Node.returningFromLoop.JumpsIn (· ≠ 99) := by
    unfold Node.JumpsIn
    decide
  have hd := State.defaultsIn_initial (· ≠ 99)
  have hagrees := State.agrees_leftover 99
  exact ⟨hreach, hjumps, hd, hagrees, by decide +kernel, Engine.run_agrees hreach hjumps hd hagrees⟩

/-- Returns at once. -/
def Node.returning : Node := ⟨0, .origin, .program [⟨7, .origin, .returnJump none⟩]⟩

/-- Would return if something held that does not, and gives 5. -/
def Node.returningNever : Node :=
  let node (id : Nat) (kind : NodeKind) : Node := ⟨id, .origin, kind⟩
  node 0 (.program [
    node 1 (.conditional (node 2 (.literal (.bool false))) (node 7 (.returnJump none)) none),
    node 3 (.literal (.int 5))])

/-- The marker that a program leaves makes another one skip a statement. -/
theorem Engine.run_reads_leftover :
    let s := Engine.bare.after Node.returning .initial
    (Node.returningNever.descendants.map (·.id)).Nodup ∧
      State.initial.Agrees (· ≠ 7) (.leftover 7) ∧
      (s.scopes.find? ScopeTree.root).any (·.executed.contains 7) = true ∧
      (Engine.bare.run Node.returningNever .initial).value?.bind Value.asInt = some 5 ∧
      (Engine.bare.run Node.returningNever (.leftover 7)).value?.any Value.isNone = true ∧
      (Engine.bare.run Node.returningNever s).value?.any Value.isNone = true :=
  ⟨by decide, State.agrees_leftover 7, by decide +kernel, by decide +kernel, by decide +kernel,
    by decide +kernel⟩

end TreeScript
