import TreeScript.Proofs.Ensures
import TreeScript.Proofs.Native
import TreeScript.Proofs.Unplaced

/-!
# Native functions and paths

Native functions and paths work on the world, and where a path is written a variable may be assigned. So they
keep what depends on neither (`Aside`). What there is to say is about errors: those of a native function are
put at the place of its call, and those of an accessor at a place that no node has (`Aside.tryAccessor`). The
latter are seen only where the policy lets the first failure decide and does not pass it over.
-/

namespace TreeScript

variable {α : Type}

theorem FieldPolicy.eq_strict {p : FieldPolicy} (hfast : p.failFast = true) (hsafe : p.safe = false) :
    p = .strict := by
  cases p
  cases hfast
  cases hsafe
  rfl

/-- What the errors of a run satisfy, and whether it may break off. -/
structure FaultLaws (engine : Engine) (E : Error → Prop) (breaks : Prop) : Prop where
  of : ∀ {cause : Cause}, cause.isOwn = true → E (.of cause)
  within : ∀ {e}, E e → e.invocable = none → ∀ name text, E (e.within name text)
  resolver : ∀ {callee candidates values e}, engine.resolver callee candidates values = .error e → E e
  /-- Unless computations may break off, native functions do not, and there is what the resolver picks. -/
  steady : breaks ∨ (∀ name, ∀ n ∈ engine.natives name, n.routine.Steady) ∧
    ∀ {callee candidates values i}, engine.resolver callee candidates values = .ok i →
      i < candidates.length
  /-- The failure of an accessor decides. -/
  accessor : engine.policy.failFast = true → engine.policy.safe = false →
    ∀ {typeName field callee}, callee ∈ Eval.accessors typeName field →
    ∀ n ∈ engine.natives callee, ∀ failure, E (Eval.hostError callee n .origin failure)

/-- The property `I` of states does not depend on what native functions and paths work on, and holds where
they stop. -/
structure Aside (engine : Engine) (I : State → Prop) (E : Error → Prop) (B : Stop → State → Prop)
    (breaks : Prop) : Prop extends FaultLaws engine E breaks where
  world : ∀ {s w}, I s → I { s with world := w }
  assign : ∀ {s id name value u}, I s → s.scopes.assignVariable id name value = .ok u →
    I { s with scopes := u }
  crashed : ∀ {s}, breaks → I s → B .crashed s
  blocked : ∀ {s}, I s → B .blocked s

/-- From a state where `I` holds, the computation ends in one where it holds, and its errors satisfy `F`. -/
abbrev Eval.Within (I : State → Prop) (F : Error → Prop) (B : Stop → State → Prop) (x : Eval α) : Prop :=
  Step.Ensures I x x (fun _ => I) (fun e s => F e ∧ I s) B

namespace FaultLaws

variable {engine : Engine} {E : Error → Prop} {breaks : Prop} (hf : FaultLaws engine E breaks)

include hf

theorem inside {e : Error} (he : E e) (name text : String) : E (e.inside name text) := by
  unfold Error.inside
  split
  · exact he
  · next hnone => exact hf.within he (Option.not_isSome_iff_eq_none.1 hnone) name text

theorem unplaced {r : Except Error α} (hr : Unplaced r) {e : Error} (he : r = .error e) : E e := by
  obtain ⟨cause, hcause, rfl⟩ := hr.bare e he
  exact hf.of hcause

theorem calm {name : String} {n : Native} (hn : n ∈ engine.natives name) : breaks ∨ n.routine.Steady :=
  hf.steady.imp_right fun h => h.1 name n hn

end FaultLaws

/-- A change of the scopes. -/
theorem Eval.changeScopes_ensures {I I' : State → Prop} {f : ScopeTree → Except Error ScopeTree}
    {E : Error → State → Prop} {B : Stop → State → Prop}
    (hf : ∀ s u, I s → f s.scopes = .ok u → I' { s with scopes := u })
    (he : ∀ s e, I s → f s.scopes = .error e → E e s) :
    Step.Ensures I (Eval.changeScopes f) (Eval.changeScopes f) (fun _ => I') E B := by
  unfold Eval.changeScopes Eval.updateScopes
  refine Step.Ensures.update (fun _ s p hs hp => ?_) fun e s hs hp => ?_
  · obtain ⟨u, hr, hp⟩ := exists_ok_of_bind hp
    cases hp
    exact hf s _ hs hr
  · cases hr : f s.scopes with
    | error e' =>
      rw [hr] at hp
      cases hp
      exact he s _ hs hr
    | ok u =>
      rw [hr] at hp
      cases hp

namespace Aside

open Eval

variable {engine : Engine} {I : State → Prop} {E F : Error → Prop} {B : Stop → State → Prop} {breaks : Prop}
  (ha : Aside engine I E B breaks)

include ha

theorem fail {cause : Cause} (h : cause.isOwn = true) :
    Within I E B (Step.fail (.of cause) : Eval α) :=
  .fail fun _ hs => ⟨ha.of h, hs⟩

theorem ofExcept {r : Except Error α} (hr : Unplaced r) :
    Within I E B (Step.ofExcept r) :=
  .ofExcept (fun _ _ _ h => h) fun _ he _ h => ⟨ha.unplaced hr he, h⟩

theorem askScopes {f : ScopeTree → Except Error α} (hf : ∀ t, Unplaced (f t)) :
    Within I E B (Eval.askScopes f) :=
  ⟨fun s hs => (ha.ofExcept (hf s.scopes)).ends s hs⟩

/-! ## Native functions -/

theorem invokeNative (hF : ∀ e, E e → F e) {callee : String} {n : Native}
    (hn : breaks ∨ n.routine.Steady) {span : Span} (hhost : ∀ failure, F (hostError callee n span failure))
    (arguments : List Argument) :
    Within I F B (invokeNative callee n arguments span) := by
  unfold Eval.invokeNative
  refine .bind (Step.Ensures.mapError (ha.ofExcept (unplaced_positionalValues callee arguments))
    fun e _ h => ⟨hF _ (ha.inside h.1 callee n.signatureText), h.2⟩) fun values => ?_
  refine .bind (.ofExcept (fun _ _ _ h => h) fun e he _ h => ⟨hF _ ?_, h⟩) fun r => ?_
  · unfold takeReceiver at he
    split at he
    · split at he <;> cases he
      exact ha.within (ha.of rfl) rfl _ _
    · cases he
  · refine .get_bind fun s hs => ?_
    refine .zoom (fun _ _ _ h => ha.world (h ▸ hs)) (fun e _ _ h he => ?_) (fun _ _ h hc => ?_)
      fun _ _ h => ha.blocked (ha.world (h ▸ hs))
    · unfold Step.mapError Step.mapErrorWith at he
      split at he <;> cases he
      exact ⟨hhost _, ha.world (h ▸ hs)⟩
    · refine ha.crashed (hn.resolve_right fun hsteady => ?_) (ha.world (h ▸ hs))
      exact n.invoke_ne_crashed hsteady (Native.crashed_of_mapError hc)

theorem choose (callee : String) (candidates : List Callable) (arguments : List Argument) :
    Step.Ensures I (choose engine callee candidates arguments)
      (choose engine callee candidates arguments)
      (fun i s => (breaks ∨ i < candidates.length) ∧ I s) (fun e s => E e ∧ I s) B := by
  unfold Eval.choose
  refine .bind (ha.ofExcept (unplaced_positionalValues callee arguments)) fun values => ?_
  refine Step.Ensures.mapErrorWith (E := fun e s => E e ∧ I s)
    (.ofExcept (fun _ hi _ h => ?_) fun e he _ h => ?_) fun e s e' h he' => ?_
  · exact ⟨ha.steady.imp_right fun hsteady => hsteady.2 hi, h⟩
  · exact ⟨ha.resolver he, h⟩
  · obtain ⟨text, -, rfl⟩ := Option.map_eq_some_iff.1 he'
    exact ⟨ha.inside h.1 _ _, h.2⟩

theorem invokeNatives (hF : ∀ e, E e → F e) {callee : String} {span : Span}
    {natives : List Native} (hcalm : ∀ n ∈ natives, breaks ∨ n.routine.Steady)
    (hhost : ∀ n ∈ natives, ∀ failure, F (hostError callee n span failure)) (arguments : List Argument) :
    Within I F B (invokeNatives engine callee natives arguments span) := by
  unfold Eval.invokeNatives
  split
  · exact ha.invokeNative hF (hcalm _ List.mem_cons_self) (hhost _ List.mem_cons_self) arguments
  · refine .bind ((ha.choose callee _ arguments).mono (fun _ => id) (fun _ _ => id)
      (fun e _ h => ⟨hF e h.1, h.2⟩) fun _ _ => id) fun index => ?_
    split
    · next hn =>
      have hmem := List.mem_of_getElem? hn
      exact (ha.invokeNative hF (hcalm _ hmem) (hhost _ hmem) arguments).strengthen fun _ h => h.2
    · next hnone =>
      refine .crash fun _ h => ha.crashed (h.1.resolve_right fun hlt => ?_) h.2
      rw [List.length_map] at hlt
      exact absurd (List.getElem?_eq_none_iff.1 hnone) (Nat.not_le.2 hlt)

/-! ## Fields of host objects -/

theorem tryAccessor {typeName field accessor : String} (haccessor : accessor ∈ accessors typeName field)
    (object : Value) :
    Within I E B (tryAccessor engine object accessor) := by
  unfold Eval.tryAccessor
  split
  · exact .pure fun _ h => h
  · -- Where the failure of an accessor is passed over, nothing has to be known of it.
    refine .bind (Step.Ensures.attempt (ha.invokeNatives
      (F := fun e => engine.policy.failFast = true → engine.policy.safe = false → E e)
      (fun _ he _ _ => he) (fun _ => ha.calm)
      (fun n hn failure hfast hsafe => ha.accessor hfast hsafe haccessor n hn failure) _)) fun r => ?_
    cases r with
    | ok value => exact .pure fun _ h => h
    | error e =>
      dsimp only
      split
      · next hfast =>
        split
        · exact .pure fun _ h => h.2
        · next hsafe => exact .fail fun _ h => ⟨h.1 hfast (Bool.eq_false_iff.2 hsafe), h.2⟩
      · exact .pure fun _ h => h.2

theorem readThrough {typeName field : String} (ref : Nat) {names : List String}
    (hnames : names ⊆ accessors typeName field) :
    Within I E B (readThrough engine typeName ref field names) := by
  induction names with
  | nil => exact .gets fun _ h => h
  | cons accessor rest ih =>
    unfold Eval.readThrough
    refine .bind (ha.tryAccessor (hnames List.mem_cons_self) _) fun access => ?_
    cases access with
    | silent => exact ih fun _ h => hnames (List.mem_cons_of_mem _ h)
    | missing => exact .pure fun _ h => h
    | found value => exact .pure fun _ h => h

theorem readField (typeName : String) (ref : Nat) (field : String) :
    Within I E B (readField engine typeName ref field) :=
  ha.readThrough ref (List.Subset.refl _)

theorem storeField (typeName : String) (ref : Nat) (field : String) (value : Value) :
    Within I E B (storeField engine typeName ref field value) := by
  unfold Eval.storeField
  dsimp only
  split
  · refine .get_bind fun s hs => ?_
    split
    · exact .bind (.modify (Q := fun _ => I) fun _ h => ha.world (h ▸ hs)) fun _ => .pure fun _ h => h
    · exact .pure fun _ h => h ▸ hs
  · refine .bind (Step.Ensures.attempt (ha.invokeNatives (F := fun _ => True) (fun _ _ => trivial)
      (fun _ => ha.calm) (fun _ _ _ => trivial) _)) fun r => ?_
    cases r with
    | ok value => exact .pure fun _ h => h
    | error e => exact .pure fun _ h => h.2

/-- The check that a write took effect. -/
theorem readBack (typeName : String) (ref : Nat) (field : String) (value : Value) {cause : Cause}
    (hcause : cause.isOwn = true) : Within I E B
      (do
        match ← Eval.readField engine typeName ref field with
        | none => Step.fail (.of cause)
        | some current =>
          let s ← Step.get
          if ← Step.ofOption (s.heap.equal? current value) then pure () else Step.fail (.of cause)) := by
  refine .bind (ha.readField typeName ref field) fun current => ?_
  cases current with
  | none => exact ha.fail hcause
  | some current =>
    refine .get_bind fun s hs => ?_
    refine .bind (.ofOption (Q := fun _ => I) fun _ _ _ h => h ▸ hs) fun same => ?_
    split
    · exact .pure fun _ h => h
    · exact ha.fail hcause

theorem writeField (typeName : String) (ref : Nat) (field : String) (value : Value) :
    Within I E B (writeField engine typeName ref field value) := by
  unfold Eval.writeField
  refine .bind (ha.storeField typeName ref field value) fun stored => ?_
  dsimp only
  cases stored with
  | ok => exact ha.readBack _ _ _ _ rfl
  | error reason =>
    dsimp only
    split
    · exact ha.readBack _ _ _ _ rfl
    · exact .bind (ha.fail rfl) fun _ => ha.readBack _ _ _ _ rfl

/-! ## Paths -/

theorem child? (value : Value) (name : String) :
    Within I E B (child? engine value name) := by
  unfold Eval.child?
  split
  · exact .gets fun _ h => h
  · exact ha.readField ..
  · exact .pure fun _ h => h

theorem walk (index : Nat) (segments : List Segment) (value : Value) :
    Within I E B (walk engine index segments value) := by
  induction segments generalizing index value with
  | nil => exact .pure fun _ h => h
  | cons segment rest ih =>
    unfold Eval.walk
    refine .bind (ha.child? value segment.name) fun r => ?_
    cases r with
    | some next => exact ih (index + 1) next
    | none => exact .pure fun _ h => h

theorem readAlong (scope : ScopeId) (p : Path) :
    Within I E B (readAlong engine scope p) := by
  unfold Eval.readAlong
  split
  · exact ha.fail rfl
  · refine .bind (ha.askScopes fun t => t.unplaced_findVariable scope _ false) fun r => ?_
    cases r with
    | none =>
      dsimp only
      split
      · exact .pure fun _ h => h
      · exact ha.fail rfl
    | some v =>
      refine .bind (ha.walk 1 _ v.value) fun r => ?_
      cases r with
      | reached value => exact .pure fun _ h => h
      | stopped index =>
        dsimp only
        split
        · exact .pure fun _ h => h
        · exact ha.fail rfl

theorem writeLast (p : Path) (field : Segment) (holder value : Value) :
    Within I E B (writeLast engine p field holder value) := by
  unfold Eval.writeLast
  dsimp only
  split
  · refine .get_bind fun s hs => ?_
    refine .bind (Step.Ensures.strengthen (ha.ofExcept (s.heap.unplaced_assignField _ _ value))
      fun _ h => h ▸ hs) fun r => ?_
    cases r with
    | some h => exact .modify fun _ => ha.world
    | none => exact ha.fail rfl
  · exact ha.writeField ..
  · split
    · exact .pure fun _ h => h
    · exact ha.fail rfl
  · exact ha.fail rfl

theorem writeAlong (scope : ScopeId) (p : Path) (value : Value) :
    Within I E B (writeAlong engine scope p value) := by
  unfold Eval.writeAlong
  split
  · exact ha.fail rfl
  · exact changeScopes_ensures (fun _ _ => ha.assign) fun s _ hs he =>
      ⟨ha.unplaced (s.scopes.unplaced_assignVariable scope _ value) he, hs⟩
  · refine .bind (ha.askScopes fun t => t.unplaced_findVariable scope _ false) fun r => ?_
    cases r with
    | none => exact ha.fail rfl
    | some v =>
      refine .bind (ha.walk 1 _ v.value) fun r => ?_
      cases r with
      | reached holder => exact ha.writeLast ..
      | stopped index =>
        dsimp only
        split
        · exact .pure fun _ h => h
        · exact ha.fail rfl

theorem readPath (scope : ScopeId) (text : String) :
    Within I E B (readPath engine scope text) :=
  .bind (ha.ofExcept (Path.unplaced_parse text)) (ha.readAlong scope)

theorem writePath (scope : ScopeId) (text : String) (value : Value) :
    Within I E B (writePath engine scope text value) :=
  .bind (ha.ofExcept (Path.unplaced_parse text)) fun p => ha.writeAlong scope p value

end Aside

end TreeScript
