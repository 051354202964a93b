import TreeScript.Eval.Visit
import TreeScript.Proofs.Stock.Basic

/-!
# Native functions, paths and operators in stock

`Stock.Laws V engine engine'`: the engines differ in their field policies only, their native functions
give values that satisfy `V`, and either no object of the host satisfies `V` or there is nothing to
compare. So the one place where a policy is read, the access to a field of a host object, is not reached
or is the same for both.
-/

namespace TreeScript

/-! ## Operators -/

namespace ValueLaws

variable {V : Value → Prop} (hV : ValueLaws V)

include hV

theorem onInts {op : Operator} {a b : Int} {v : Value} (h : op.onInts a b = .ok v) : V v := by
  cases op <;> simp only [Operator.onInts, Operator.exact] at h <;> (repeat' split at h) <;> cases h
  all_goals first | exact hV.int _ | exact hV.bool _

theorem onFloats {op : Operator} {a b : Float} {v : Value} (h : op.onFloats a b = some v) : V v := by
  cases op <;> cases h
  all_goals first | exact hV.float _ | exact hV.bool _

theorem onStrings {op : Operator} {a b : String} {v : Value} (h : op.onStrings a b = some v) :
    V v := by
  cases op <;> cases h
  all_goals first | exact hV.string _ | exact hV.bool _

/-- An operator joins lists, and otherwise makes new values. -/
theorem combine {h : Heap} {op : Operator} {left right v : Value} (hleft : V left) (hright : V right)
    (hv : h.combine? op left right = some (.ok v)) : V v := by
  have hor {l r : Value} {result : Option Value} (hresult : ∀ v, result = some v → V v)
      (h : some (op.orMismatch l r result) = some (.ok v)) : V v := by
    cases result with
    | none => cases h
    | some w =>
      cases h
      exact hresult _ rfl
  unfold Heap.combine? at hv
  split at hv
  · exact hV.onInts (Option.some.inj hv)
  · exact hor (fun _ => hV.onFloats) hv
  · exact hor (fun _ => hV.onFloats) hv
  · exact hor (fun _ => hV.onFloats) hv
  · exact hor (fun _ => hV.onStrings) hv
  · split at hv
    · obtain ⟨text, -, hv⟩ := Option.map_eq_some_iff.1 hv
      cases hv
      exact hV.string _
    · cases hv
  · split at hv
    · cases hv
      refine hV.list.2 fun x hx => ?_
      rcases List.mem_append.1 hx with hx | hx
      · exact hV.list.1 hleft x hx
      · exact hV.list.1 hright x hx
    · cases hv
  · cases hv

theorem operate {h : Heap} {op : Operator} {left right v : Value} (hleft : V left) (hright : V right)
    (hv : h.operate? op left right = some (.ok v)) : V v := by
  unfold Heap.operate? at hv
  split at hv
  · obtain ⟨b, -, hv⟩ := Option.map_eq_some_iff.1 hv
    cases hv
    exact hV.bool _
  · obtain ⟨b, -, hv⟩ := Option.map_eq_some_iff.1 hv
    cases hv
    exact hV.bool _
  · exact hV.combine hleft hright hv

end ValueLaws

/-! ## Laws -/

/-- The function gives values that satisfy `V`, and stores no others. -/
structure Native.Stocked (V : Value → Prop) (n : Native) : Prop where
  value : ∀ {thread receiver arguments w v w'},
    n.invoke thread receiver arguments w = .ok v w' → V v
  heap : ∀ {thread receiver arguments w w'}, w.heap.Stocked V →
    (n.invoke thread receiver arguments w).state? = some w' → w'.heap.Stocked V

theorem Native.Stocked.of_all {V : Value → Prop} (hV : ∀ v, V v) (n : Native) : n.Stocked V :=
  ⟨fun _ => hV _, fun _ _ => .of_all hV _⟩

namespace Stock

open Eval

structure Laws (V : Value → Prop) (engine engine' : Engine) : Prop extends ValueLaws V where
  natives : engine'.natives = engine.natives
  resolver : engine'.resolver = engine.resolver
  symbols : engine'.symbols = engine.symbols
  stocked : ∀ name, ∀ n ∈ engine.natives name, n.Stocked V
  host : ∀ typeName ref, V (.host typeName ref) → engine' = engine ∧ ∀ v, V v

variable {V : Value → Prop} {made : List ScriptFunction} {engine engine' : Engine}

/-! ## Native functions -/

theorem Keeps.onWorld {α : Type} {Q : α → Prop} {x : Step World Error α}
    (h : ∀ w, w.Stocked V → ∀ w', (x w).state? = some w' → w'.Stocked V)
    (hQ : ∀ w a w', x w = .ok a w' → Q a) : Keeps V made Q (onWorld x) (onWorld x) := by
  refine ⟨⟨fun s hs => ⟨rfl, ?_⟩⟩⟩
  obtain ⟨more, hs⟩ := hs
  have hw : ∀ w', (x s.world).state? = some w' →
      ({ s with world := w' } : State).Stocked V (made ++ more) := fun w' hw' =>
    hs.withWorld (h s.world hs.world w' hw')
  unfold Eval.onWorld Step.zoom
  cases ho : x s.world with
  | ok a w' => exact ⟨more, hw w' (by rw [ho]; rfl), hQ _ _ _ ho⟩
  | error _ w' | crashed w' | blocked w' => exact ⟨more, hw w' (by rw [ho]; rfl)⟩
  | exhausted => trivial

/-- A native call gives what the function may return. -/
theorem Keeps.invokeNative {n : Native} (hn : n.Stocked V) (callee : String)
    (arguments : List Argument) (span : Span) :
    Keeps V made (fun v => V v ∧ n.signature.returns.Returns v)
      (invokeNative callee n arguments span) (invokeNative callee n arguments span) := by
  unfold Eval.invokeNative
  refine .bind (Q := Any) (.mapError (.ofExcept fun _ _ => trivial)) fun values _ => ?_
  refine .bind (Q := Any) (.ofExcept fun _ _ => trivial) fun taken _ => .get_bind fun s _ => ?_
  refine .onWorld (fun w hw w' hw' => ?_) fun w v w' h => ?_
  · rw [Native.state?_mapError] at hw'
    exact ⟨hn.heap hw.heap hw', fun e he =>
      (Native.typed_of_invoke hw' e he).elim (hw.entered e) id⟩
  · have hinvoke := Native.ok_of_mapError h
    exact ⟨hn.value hinvoke, Native.returns_of_invoke hinvoke⟩

theorem Keeps.choose (hl : Laws V engine engine') (callee : String) (candidates : List Callable)
    (arguments : List Argument) :
    Keeps V made (fun i => ∃ values, positionalValues callee arguments = .ok values ∧
        engine.resolver callee candidates values = .ok i)
      (choose engine callee candidates arguments) (choose engine' callee candidates arguments) := by
  unfold Eval.choose
  rw [hl.resolver]
  exact .bind (.ofExcept fun _ h => h) fun values hvalues =>
    .mapErrorWith (.ofExcept fun i hi => ⟨values, hvalues, hi⟩)

/-! ## Fields of host objects -/

/-- The check that a write took effect. -/
def readBack (engine : Engine) (typeName : String) (ref : Nat) (field : String) (value : Value)
    (ineffective : Error) : Eval Unit := do
  match ← readField engine typeName ref field with
  | none => Step.fail ineffective
  | some current =>
    let s ← Step.get
    if ← Step.ofOption (s.heap.equal? current value) then pure () else Step.fail ineffective

section Host

variable (hV : ∀ v, V v)

include hV

theorem Keeps.invokeNatives (engine : Engine) (callee : String) (natives : List Native)
    (arguments : List Argument) (span : Span) :
    Keeps V made Any (invokeNatives engine callee natives arguments span)
      (invokeNatives engine callee natives arguments span) := by
  unfold Eval.invokeNatives
  split
  · exact (invokeNative (.of_all hV _) ..).any
  · unfold Eval.choose
    refine .bind (Q := Any) ?_ fun i _ => ?_
    · exact .bind (Q := Any) (.ofExcept fun _ _ => trivial) fun _ _ =>
        .mapErrorWith (.ofExcept fun _ _ => trivial)
    · split
      · exact (invokeNative (.of_all hV _) ..).any
      · exact .crash

theorem Keeps.tryAccessor (engine : Engine) (object : Value) (accessor : String) :
    Keeps V made Any (tryAccessor engine object accessor) (tryAccessor engine object accessor) := by
  unfold Eval.tryAccessor
  split
  · exact .pure trivial
  · refine .bind (invokeNatives hV ..).attempt fun r _ => ?_
    cases r with
    | ok value => exact .pure trivial
    | error e =>
      dsimp only
      repeat' split
      all_goals first | exact .pure trivial | exact .fail e

theorem Keeps.readField (engine : Engine) (typeName : String) (ref : Nat) (field : String) :
    Keeps V made Any (readField engine typeName ref field) (readField engine typeName ref field) := by
  unfold Eval.readField
  generalize accessors typeName field = names
  induction names with
  | nil => exact .gets fun _ _ => trivial
  | cons accessor rest ih =>
    unfold Eval.readThrough
    refine .bind (tryAccessor hV ..) fun access _ => ?_
    cases access with
    | silent => exact ih
    | missing | found => exact .pure trivial

theorem Keeps.withHeap (h : Heap) :
    Keeps V made Any (Step.modify fun s => s.withHeap h) (Step.modify fun s => s.withHeap h) :=
  .modify fun _ _ hs => hs.withWorld ⟨.of_all hV h, hs.world.entered⟩

theorem Keeps.storeField (engine : Engine) (typeName : String) (ref : Nat) (field : String)
    (value : Value) :
    Keeps V made Any (storeField engine typeName ref field value)
      (storeField engine typeName ref field value) := by
  unfold Eval.storeField
  dsimp only
  split
  · refine .get_bind fun s _ => ?_
    split
    · exact .bind (withHeap hV _) fun _ _ => .pure trivial
    · exact .pure trivial
  · refine .bind (invokeNatives hV ..).attempt fun r _ => ?_
    cases r <;> exact .pure trivial

theorem Keeps.readBack (engine : Engine) (typeName : String) (ref : Nat) (field : String)
    (value : Value) (e : Error) :
    Keeps V made Any (readBack engine typeName ref field value e)
      (readBack engine typeName ref field value e) := by
  unfold Stock.readBack
  refine .bind (readField hV ..) fun current _ => ?_
  cases current with
  | none => exact .fail e
  | some current =>
    refine .get_bind fun s _ => .bind (Q := Any) (.ofOption fun _ _ => trivial) fun equal _ => ?_
    split
    · exact .pure trivial
    · exact .fail e

theorem Keeps.writeField (engine : Engine) (typeName : String) (ref : Nat) (field : String)
    (value : Value) :
    Keeps V made Any (writeField engine typeName ref field value)
      (writeField engine typeName ref field value) := by
  unfold Eval.writeField
  refine .bind (storeField hV ..) fun stored _ => ?_
  dsimp only
  cases stored with
  | ok => exact readBack hV ..
  | error reason =>
    dsimp only
    split
    · exact readBack hV ..
    · exact .bind (Q := Any) (.fail _) fun _ _ => readBack hV ..

end Host

/-! ## Paths -/

theorem Keeps.child? (hl : Laws V engine engine') {value : Value} (hvalue : V value) (name : String) :
    Keeps V made (fun r => ∀ v, r = some v → V v) (child? engine value name)
      (child? engine' value name) := by
  unfold Eval.child?
  cases value with
  | object ref =>
    refine .gets fun s hs v hv => ?_
    obtain ⟨more, hs⟩ := hs
    exact hs.world.heap.field? hv
  | host typeName ref =>
    obtain ⟨rfl, hV⟩ := hl.host typeName ref hvalue
    exact (readField hV ..).weaken fun _ _ v _ => hV v
  | _ => exact .pure fun _ h => (nomatch h)

theorem Keeps.walk (hl : Laws V engine engine') (segments : List Segment) (index : Nat) {value : Value}
    (hvalue : V value) :
    Keeps V made (fun r => ∀ v, r = .reached v → V v) (walk engine index segments value)
      (walk engine' index segments value) := by
  induction segments generalizing index value with
  | nil =>
    refine .pure fun v hv => ?_
    cases hv
    exact hvalue
  | cons segment rest ih =>
    unfold Eval.walk
    refine (child? hl hvalue segment.name).bind fun r hr => ?_
    cases r with
    | some next => exact ih (index + 1) (hr next rfl)
    | none =>
      refine .pure fun v hv => ?_
      cases hv

theorem Keeps.pathNotFound {α : Type} {Q : α → Prop} (hl : Laws V engine engine') (p : Path)
    (index : Nat) : Keeps V made Q (pathNotFound engine p index) (pathNotFound engine' p index) := by
  unfold Eval.pathNotFound
  rw [hl.symbols]
  exact .fail _

theorem Keeps.findVariable (scope : ScopeId) (name : String) :
    Keeps V made (fun r => ∀ x, r = some x → V x.value)
      (Eval.askScopes fun t => t.findVariable scope name false)
      (Eval.askScopes fun t => t.findVariable scope name false) :=
  .askScopes fun _ _ _ ht hr _ hx => ScopeTree.Stocked.findVariable ht (hx ▸ hr)

theorem Keeps.readPath (hl : Laws V engine engine') (scope : ScopeId) (text : String) :
    Keeps V made V (readPath engine scope text) (readPath engine' scope text) := by
  unfold Eval.readPath Eval.readAlong
  refine .bind (Q := Any) (.ofExcept fun _ _ => trivial) fun p _ => ?_
  split
  · exact pathNotFound hl p 0
  · refine (findVariable scope _).bind fun r hr => ?_
    cases r with
    | none =>
      dsimp only
      split
      · exact .pure hl.none
      · exact pathNotFound hl p 0
    | some x =>
      refine (walk hl _ 1 (hr x rfl)).bind fun r hr => ?_
      cases r with
      | reached value => exact .pure (hr value rfl)
      | stopped index =>
        dsimp only
        split
        · exact .pure hl.none
        · exact pathNotFound hl p index

theorem Keeps.writeLast (hl : Laws V engine engine') (p : Path) (field : Segment) {holder value : Value}
    (hholder : V holder) (hvalue : V value) :
    Keeps V made Any (writeLast engine p field holder value) (writeLast engine' p field holder value) := by
  unfold Eval.writeLast
  cases holder with
  | object ref =>
    refine .get_bind fun s hs => ?_
    obtain ⟨more, hs⟩ := hs
    refine .bind (.ofExcept fun _ h => h) fun r hr => ?_
    cases r with
    | some h =>
      exact .modify fun _ t ht => ht.withWorld
        ⟨hs.world.heap.assignField hl.toValueLaws hvalue hr, ht.world.entered⟩
    | none => exact pathNotFound hl p _
  | host typeName ref =>
    obtain ⟨rfl, hV⟩ := hl.host typeName ref hholder
    exact writeField hV ..
  | none =>
    dsimp only
    split
    · exact .pure trivial
    · exact pathNotFound hl p _
  | _ => exact pathNotFound hl p _

theorem Keeps.writePath (hl : Laws V engine engine') (scope : ScopeId) (text : String) {value : Value}
    (hvalue : V value) :
    Keeps V made Any (writePath engine scope text value) (writePath engine' scope text value) := by
  unfold Eval.writePath Eval.writeAlong
  refine .bind (Q := Any) (.ofExcept fun _ _ => trivial) fun p _ => ?_
  split
  · exact pathNotFound hl p 0
  · exact .changeScopes fun _ _ _ ht hu =>
      ScopeTree.Stocked.assignVariable hl.toValueLaws ht hvalue hu
  · refine (findVariable scope _).bind fun r hr => ?_
    cases r with
    | none => exact pathNotFound hl p 0
    | some x =>
      refine (walk hl _ 1 (hr x rfl)).bind fun r hr => ?_
      cases r with
      | reached holder => exact writeLast hl p _ (hr holder rfl) hvalue
      | stopped index =>
        dsimp only
        split
        · exact .pure trivial
        · exact pathNotFound hl p index

theorem Keeps.operate (hV : ValueLaws V) (op : Operator) {left right : Value} (hleft : V left)
    (hright : V right) : Keeps V made V (operate op left right) (operate op left right) := by
  unfold Eval.operate
  refine .get_bind fun s _ => .bind (.ofOption fun _ h => h) fun result hresult => ?_
  refine .ofExcept fun v hv => ?_
  cases result with
  | error e => cases hv
  | ok w =>
    cases hv
    exact hV.operate hleft hright hresult

end Stock

end TreeScript
