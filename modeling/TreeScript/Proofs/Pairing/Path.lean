import TreeScript.Proofs.Pairing.Laws

/-!
# Native calls and paths in paired states

What works on the heap and on the world follows itself in paired states: the heap is the same on
both sides. Native functions are given the thread, which may differ; then the first run goes astray,
or the function does not look.

Nothing here visits a node. Errors are equal on both sides, but for what the engines say of paths that lead
nowhere (`AlikePaths`).
-/

namespace TreeScript

namespace Pairing

variable {P : Pairing} {engine : Engine} {α : Type} {p : Prop} {v : P.View} {u : P.Line}

namespace Follows

/-! ## The world -/

theorem onWorld_eq (x : Step World Error α) (s : State) :
    Eval.onWorld x s = match x s.world with
      | .ok a w => .ok a { s with world := w }
      | .error e w => .error e { s with world := w }
      | .crashed w => .crashed { s with world := w }
      | .blocked w => .blocked { s with world := w }
      | .exhausted w => .exhausted { s with world := w } := by
  unfold Eval.onWorld Step.zoom
  cases x s.world <;> rfl

/-- Works on the world with an eye on the thread. -/
theorem onWorld {x : Thread → Step World Error α}
    (hgrows : ∀ r w, (x r w).Grown P.worldTerms w)
    (h : p → ∀ held r r', P.threads u held r r' → P.OnWorlds (x r) (x r')) :
    P.Follows p Eq Eq v u (fun s => Eval.onWorld (x s.thread) s)
      (fun s => Eval.onWorld (x s.thread) s) := by
  refine ⟨fun s => ?_, fun s s' hs => ?_⟩
  · have hentered := hgrows s.thread s.world
    rw [onWorld_eq]
    cases hx : x s.thread s.world <;> rw [hx] at hentered <;> exact ⟨Nat.le_refl _, hentered⟩
  · obtain ⟨hp, hat⟩ := hs
    have hends := (h hp _ _ _ hat.threads).ends _ _ hat.world
    rw [onWorld_eq, onWorld_eq]
    generalize x s.thread s.world = o at hends
    generalize x s'.thread s'.world = o' at hends
    cases hends with
    | ok h => exact .ok ⟨h.1, hat.withWorld h.2⟩
    | error h => exact .error ⟨h.1, hat.withWorld h.2⟩
    | crashed h => exact .crashed (hat.withWorld h).apart
    | blocked h => exact .blocked (hat.withWorld h).apart
    | exhausted h => exact .exhausted (hat.withWorld h).apart
    | astray h =>
      refine .astray ?_
      cases o <;> exact h s

theorem gets_heap (f : Heap → α) {F : Error → Error → Prop} :
    P.Follows p Eq F v u (Step.gets fun s => f s.heap) (Step.gets fun s => f s.heap) :=
  gets fun _ _ _ h => congrArg f h.heap.symm

theorem get_heap_at {V : α → α → Prop} {F : Error → Error → Prop} {k k' : State → Eval α}
    (h : ∀ t t', t'.heap = t.heap →
      Step.Follows P.terms (fun s s' => (s = t ∧ s' = t') ∧ p ∧ P.At v u t t') (k t) (k' t')
        (fun a a' s s' => V a a' ∧ P.At v u s s') (fun e e' s s' => F e e' ∧ P.At v u s s')
        P.Apart) :
    P.Follows p V F v u (Step.get >>= k) (Step.get >>= k') :=
  get_at (I := fun s s' => s'.heap = s.heap) (fun _ => rfl) (fun _ _ => Near.heap) h

theorem get_heap {V : α → α → Prop} {F : Error → Error → Prop} {k k' : State → Eval α}
    (h : ∀ t t', t'.heap = t.heap → P.Follows p V F v u (k t) (k' t')) :
    P.Follows p V F v u (Step.get >>= k) (Step.get >>= k') :=
  get_heap_at fun t t' ht => (h t t' ht).strengthen fun _ _ hs => by
    obtain ⟨⟨rfl, rfl⟩, hs⟩ := hs
    exact hs

/-- The heap is replaced by one that was made from it. -/
theorem withHeap {t t' : State} {h : Heap} {F : Error → Error → Prop}
    (hh : ∀ w', P.world t.world w' → P.world { t.world with heap := h } { w' with heap := h }) :
    Step.Follows P.terms (fun s s' => (s = t ∧ s' = t') ∧ p ∧ P.At v u t t')
      (Step.modify fun s => s.withHeap h) (Step.modify fun s => s.withHeap h)
      (fun a a' s s' => a = a' ∧ P.At v u s s') (fun e e' s s' => F e e' ∧ P.At v u s s')
      P.Apart := by
  refine Step.Follows.modify (fun _ => ⟨Nat.le_refl _, List.prefix_refl _⟩) fun s s' hs => ?_
  obtain ⟨⟨rfl, rfl⟩, -, hat⟩ := hs
  exact ⟨rfl, hat.withWorld (hh _ hat.world)⟩

end Follows

/-! ## Engines that follow paths alike -/

/-- Two engines follow paths alike, and what they say of paths that lead nowhere is related. -/
structure AlikePaths (F : Error → Error → Prop) (engine engine' : Engine) : Prop where
  refl : ∀ e, F e e
  walk : Eval.walk engine' = Eval.walk engine
  writeField : Eval.writeField engine' = Eval.writeField engine
  notFound : ∀ (path : Path) (index : Nat),
    F (path.notFound index engine.symbols) (path.notFound index engine'.symbols)

theorem AlikePaths.same {F : Error → Error → Prop} (hF : ∀ e, F e e) : AlikePaths F engine engine :=
  ⟨hF, rfl, rfl, fun _ _ => hF _⟩

theorem AlikePaths.pathNotFound {engine' : Engine} {F : Error → Error → Prop}
    (hpaths : AlikePaths F engine engine') (path : Path) (index : Nat) :
    P.Follows (α := α) p Eq F v u (Eval.pathNotFound engine path index)
      (Eval.pathNotFound engine' path index) := .fail fun _ => hpaths.notFound path index

/-! ## Native functions -/

namespace Laws

open Eval Follows

variable (hl : P.Laws engine)

include hl

theorem invokeNative {callee : String} {n : Native} (hn : p → ∃ name, n ∈ engine.natives name)
    (arguments : List Argument) (span : Span) :
    P.Follows p Eq Eq v u (invokeNative callee n arguments span)
      (invokeNative callee n arguments span) := by
  unfold Eval.invokeNative
  refine bind_same (mapError (ofExcept_same (fun _ => rfl) _) fun _ _ h => h ▸ rfl) fun values => ?_
  refine bind_ofExcept (fun _ => rfl) fun taken _ => ?_
  refine onWorld (x := fun r => (n.invoke r taken.1 taken.2).mapError (hostError callee n span))
    (fun r w => ?_) fun hp held r r' hr => ?_
  · unfold Outcome.Grown
    rw [Native.reached_mapError]
    exact (n.invoked r taken.1 taken.2 w).entered_grows
  · obtain ⟨name, hname⟩ := hn hp
    exact (hl.native hname hr taken.1 taken.2).mapError fun _ _ _ _ h => ⟨h.1 ▸ rfl, h.2⟩

omit hl in
theorem choose (callee : String) (candidates : List Callable) (arguments : List Argument) :
    P.Follows p Eq Eq v u (choose engine callee candidates arguments)
      (choose engine callee candidates arguments) := by
  unfold Eval.choose
  refine bind_ofExcept (fun _ => rfl) fun values _ => ?_
  refine mapErrorWith (ofExcept_same (fun _ => rfl) _) fun e e' s s' _ he hs => ?_
  rw [he, hs.callableSignature]
  exact rel_self fun _ _ => rfl

theorem invokeNatives {callee name : String} (arguments : List Argument) (span : Span) :
    P.Follows p Eq Eq v u (invokeNatives engine callee (engine.natives name) arguments span)
      (invokeNatives engine callee (engine.natives name) arguments span) := by
  unfold Eval.invokeNatives
  split
  · next n hn => exact hl.invokeNative (fun _ => ⟨name, by simp [hn]⟩) arguments span
  · refine bind_same (choose callee _ arguments) fun index => ?_
    cases hn : (engine.natives name)[index]? with
    | none => exact crash
    | some n =>
      exact hl.invokeNative (fun _ => ⟨name, List.mem_of_getElem? hn⟩) arguments span

/-! ## Fields of host objects -/

theorem tryAccessor (object : Value) (accessor : String) :
    P.Follows p Eq Eq v u (tryAccessor engine object accessor)
      (tryAccessor engine object accessor) := by
  unfold Eval.tryAccessor
  split
  · exact .pure _
  · refine bind_same (attempt_same (hl.invokeNatives _ _)) fun r => ?_
    cases r with
    | ok value => exact .pure _
    | error e =>
      dsimp only
      split
      · split
        · exact .pure _
        · exact .fail fun _ => rfl
      · exact .pure _

theorem readThrough (typeName : String) (ref : Nat) (field : String) (names : List String) :
    P.Follows p Eq Eq v u (readThrough engine typeName ref field names)
      (readThrough engine typeName ref field names) := by
  induction names with
  | nil => exact gets_heap fun h => h.hostField? ref field
  | cons accessor rest ih =>
    unfold Eval.readThrough
    refine bind_same (hl.tryAccessor _ _) fun access => ?_
    cases access with
    | silent => exact ih
    | missing => exact .pure _
    | found value => exact .pure _

theorem readField (typeName : String) (ref : Nat) (field : String) :
    P.Follows p Eq Eq v u (readField engine typeName ref field)
      (readField engine typeName ref field) := hl.readThrough ..

theorem storeField (typeName : String) (ref : Nat) (field : String) (value : Value) :
    P.Follows p Eq Eq v u (storeField engine typeName ref field value)
      (storeField engine typeName ref field value) := by
  unfold Eval.storeField
  dsimp only
  split
  · refine get_heap_at fun t t' ht => ?_
    rw [ht]
    cases hset : t.heap.setHostField ref field value with
    | ok h =>
      refine (withHeap fun _ hw => hl.extend hw (Heap.extends_setHostField hset)).bind fun _ _ => ?_
      exact .pure fun _ _ hs => ⟨rfl, hs.2⟩
    | error reason =>
      refine .pure fun _ _ hs => ?_
      obtain ⟨⟨rfl, rfl⟩, -, hs⟩ := hs
      exact ⟨rfl, hs⟩
  · refine bind_same (attempt_same (hl.invokeNatives _ _)) fun r => ?_
    cases r <;> exact .pure _

/-- The check that a write took effect. -/
theorem readBack (typeName : String) (ref : Nat) (field : String) (value : Value) (e : Error) :
    P.Follows p Eq Eq v u
      (do
        match ← Eval.readField engine typeName ref field with
        | none => Step.fail e
        | some current =>
          let s ← Step.get
          if ← Step.ofOption (s.heap.equal? current value) then pure () else Step.fail e)
      (do
        match ← Eval.readField engine typeName ref field with
        | none => Step.fail e
        | some current =>
          let s ← Step.get
          if ← Step.ofOption (s.heap.equal? current value) then pure () else Step.fail e) := by
  refine bind_same (hl.readField ..) fun current => ?_
  cases current with
  | none => exact .fail fun _ => rfl
  | some current =>
    refine get_heap fun t t' ht => ?_
    rw [ht]
    refine bind_same (ofOption _) fun same => ?_
    split
    · exact .pure _
    · exact .fail fun _ => rfl

theorem writeField (typeName : String) (ref : Nat) (field : String) (value : Value) :
    P.Follows p Eq Eq v u (writeField engine typeName ref field value)
      (writeField engine typeName ref field value) := by
  unfold Eval.writeField
  refine bind_same (hl.storeField ..) fun stored => ?_
  dsimp only
  cases stored with
  | ok => exact hl.readBack ..
  | error reason =>
    dsimp only
    split
    · exact hl.readBack ..
    · exact bind_same (.fail fun _ => rfl) fun _ => hl.readBack ..

/-! ## Paths -/

theorem child? (value : Value) (name : String) :
    P.Follows p Eq Eq v u (child? engine value name) (child? engine value name) := by
  unfold Eval.child?
  split
  · exact gets_heap fun h => h.field? _ name
  · exact hl.readField ..
  · exact .pure _

theorem walk (index : Nat) (segments : List Segment) (value : Value) :
    P.Follows p Eq Eq v u (walk engine index segments value) (walk engine index segments value) := by
  induction segments generalizing index value with
  | nil => exact .pure _
  | cons segment rest ih =>
    unfold Eval.walk
    refine bind_same (hl.child? ..) fun next => ?_
    cases next with
    | none => exact .pure _
    | some next => exact ih ..

theorem lookUp (scope : ScopeId) (name : String) :
    P.Follows p Eq Eq v u (askScopes fun t => t.findVariable scope name false)
      (askScopes fun t => t.findVariable scope name false) :=
  askScopes (fun _ => rfl) fun _ _ _ h => hl.findVariable h scope name

variable {engine' : Engine} {F : Error → Error → Prop} (hpaths : AlikePaths F engine engine')

include hpaths

theorem readAlong (scope : ScopeId) (path : Path) :
    P.Follows p Eq F v u (readAlong engine scope path) (readAlong engine' scope path) := by
  unfold Eval.readAlong
  split
  · exact hpaths.pathNotFound path 0
  · refine bind_same ((hl.lookUp ..).loosen hpaths.refl) fun x => ?_
    cases x with
    | none =>
      dsimp only
      split
      · exact .pure _
      · exact hpaths.pathNotFound path 0
    | some x =>
      dsimp only
      rw [hpaths.walk]
      refine bind_same ((hl.walk ..).loosen hpaths.refl) fun walked => ?_
      cases walked with
      | reached value => exact .pure _
      | stopped index =>
        dsimp only
        split
        · exact .pure _
        · exact hpaths.pathNotFound path index

theorem writeLast (path : Path) (field : Segment) (holder value : Value) :
    P.Follows p Eq F v u (writeLast engine path field holder value)
      (writeLast engine' path field holder value) := by
  unfold Eval.writeLast
  dsimp only
  split
  · next ref =>
    refine get_heap_at fun t t' ht => ?_
    rw [ht]
    cases hset : t.heap.assignField ref field.name value with
    | error e =>
      refine .fail fun _ _ hs => ?_
      obtain ⟨⟨rfl, rfl⟩, -, hs⟩ := hs
      exact ⟨hpaths.refl e, hs⟩
    | ok assigned =>
      cases assigned with
      | some h => exact withHeap fun _ hw => hl.assignField hw hset
      | none =>
        refine (hpaths.pathNotFound (p := p) path _).strengthen fun _ _ hs => ?_
        obtain ⟨⟨rfl, rfl⟩, hs⟩ := hs
        exact hs
  · rw [hpaths.writeField]
    exact (hl.writeField ..).loosen hpaths.refl
  · split
    · exact .pure _
    · exact hpaths.pathNotFound path _
  · exact hpaths.pathNotFound path _

theorem writeAlong (scope : ScopeId) (path : Path) (value : Value) :
    P.Follows p Eq F v u (writeAlong engine scope path value)
      (writeAlong engine' scope path value) := by
  unfold Eval.writeAlong
  split
  · exact hpaths.pathNotFound path 0
  · exact changeScopes hpaths.refl fun _ _ _ h => hl.assignVariable h scope _ value
  · refine bind_same ((hl.lookUp ..).loosen hpaths.refl) fun x => ?_
    cases x with
    | none => exact hpaths.pathNotFound path 0
    | some x =>
      dsimp only
      rw [hpaths.walk]
      refine bind_same ((hl.walk ..).loosen hpaths.refl) fun walked => ?_
      cases walked with
      | reached holder => exact hl.writeLast hpaths ..
      | stopped index =>
        dsimp only
        split
        · exact .pure _
        · exact hpaths.pathNotFound path index

theorem readPath (scope : ScopeId) (text : String) :
    P.Follows p Eq F v u (readPath engine scope text) (readPath engine' scope text) :=
  bind_ofExcept hpaths.refl fun _ _ => hl.readAlong hpaths ..

theorem writePath (scope : ScopeId) (text : String) (value : Value) :
    P.Follows p Eq F v u (writePath engine scope text value) (writePath engine' scope text value) :=
  bind_ofExcept hpaths.refl fun _ _ => hl.writeAlong hpaths ..

end Laws

end Pairing

end TreeScript
