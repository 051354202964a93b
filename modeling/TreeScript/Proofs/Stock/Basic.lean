import TreeScript.Proofs.Boundary
import TreeScript.Proofs.Ensures
import TreeScript.Proofs.Scope.Edit
import TreeScript.Proofs.Scope.Teardown

/-!
# What a state has in stock

A value can be kept in many places: in variables and fields, in the arguments and results of calls, in
default values, in the outcomes of tasks and in the work of jobs. `State.Stocked V made s` says of all
these places that their values satisfy `V`. It also says which function an id stands for: the functions
`made` were made one after the other, and every function that is bound, and every signature that is kept
under an id, is that of the function with this id.

A run makes more functions, so `Stock.At V made` is about `made` and any functions after them.
`Stock.Keeps V made Q x x'`: from such a state `x` ends in one, whether it returns, fails, breaks off or
waits, with a value that satisfies `Q`; and `x'` does the same as `x`. `Stock.Yields` is for values that
depend on the functions made until then.
-/

namespace TreeScript

open Step (Ensures)

/-! ## Places -/

/-- The function is the one that was made under its id. -/
def ScriptFunction.MadeIn (f : ScriptFunction) (made : List ScriptFunction) : Prop :=
  made[f.id]? = some f

theorem ScriptFunction.MadeIn.append {f : ScriptFunction} {made : List ScriptFunction}
    (h : f.MadeIn made) (more : List ScriptFunction) : f.MadeIn (made ++ more) := by
  unfold MadeIn at h ⊢
  rw [List.getElem?_append_left (List.getElem?_eq_some_iff.1 h).1, h]

/-- All members of the group were made. -/
def Implementation.MadeIn (i : Implementation) (made : List ScriptFunction) : Prop :=
  ∀ member f, i.functions.find? member = some f → f.MadeIn made

theorem Implementation.MadeIn.append {i : Implementation} {made : List ScriptFunction}
    (h : i.MadeIn made) (more : List ScriptFunction) : i.MadeIn (made ++ more) :=
  fun member f hf => (h member f hf).append more

structure Scope.Stocked (V : Value → Prop) (made : List ScriptFunction) (c : Scope) : Prop where
  locals : ∀ name x, c.locals.find? name = some x → V x.value
  functions : ∀ name k, c.functions.find? name = some k → ∃ f, k = .script f ∧ f.MadeIn made
  implementations : ∀ name i, c.implementations.find? name = some i → i.MadeIn made

/-- The signature of the function with an id, and default values that satisfy `V`. -/
structure Signature.Stocked (V : Value → Prop) (made : List ScriptFunction) (id : Nat)
    (signature : Signature) : Prop where
  returns : ∃ f, made[id]? = some f ∧ signature.returns = f.returns
  defaults : ∀ p ∈ signature.parameters, ∀ v, p.default = some v → V v

structure Frame.Stocked (V : Value → Prop) (f : Frame) : Prop where
  arguments : ∀ a ∈ f.arguments, V a.2
  result : ∀ v, f.result = some v → V v

/-- There are objects of the host only if all values satisfy `V`. -/
structure Heap.Stocked (V : Value → Prop) (h : Heap) : Prop where
  fields : ∀ ref name x, (h.fields ref).find? name = some x → V x.value
  hosts : h.hosts = #[] ∨ ∀ v, V v

/-- The arguments that a task was given satisfy `V`. A task that carries out a native routine may end
with any value. -/
def Work.Stocked (V : Value → Prop) : Work → Prop
  | .call _ _ bound _ => ∀ b ∈ bound, V b.2 ∧ ∀ v, b.1.default = some v → V v
  | .routine _ => ∀ v, V v
  | .failure .. => True

structure World.Stocked (V : Value → Prop) (w : World) : Prop where
  heap : w.heap.Stocked V
  entered : ∀ e ∈ w.entered.toList, e.Typed

structure State.Stocked (V : Value → Prop) (made : List ScriptFunction) (s : State) : Prop where
  scopes : s.scopes.All (Scope.Stocked V made)
  world : s.world.Stocked V
  frames : ∀ f ∈ s.thread.frames, f.Stocked V
  signatures : ∀ id signature, s.signatures.find? id = some signature → signature.Stocked V made id
  next : s.nextFunction = made.length
  outcomes : ∀ (i : Nat) task v, s.tasks[i]? = some task → task.outcome = some (.ok v) → V v
  parked : ∀ job ∈ s.parked, job.work.Stocked V

/-! ## Values -/

/-- `V` is about the parts of a value: a list satisfies it if its elements do, and everything else but
objects of the host does. -/
structure ValueLaws (V : Value → Prop) : Prop where
  none : V .none
  bool : ∀ b, V (.bool b)
  int : ∀ n, V (.int n)
  float : ∀ x, V (.float x)
  string : ∀ text, V (.string text)
  object : ∀ ref, V (.object ref)
  task : ∀ id, V (.task id)
  list : ∀ {values}, V (.list values) ↔ ∀ v ∈ values, V v

namespace ValueLaws

variable {V : Value → Prop} (hV : ValueLaws V)

include hV

theorem adaptPrimitive? {name : String} {v w : Value}
    (h : ValueType.adaptPrimitive? name v = some w) : V w := by
  cases v <;> simp only [ValueType.adaptPrimitive?, Option.ite_none_right_eq_some, Option.some.injEq,
    reduceCtorEq] at h
  case bool => exact h.2 ▸ hV.bool _
  case int =>
    split at h
    · cases h
      exact hV.int _
    · exact (Option.some.inj (Option.ite_none_right_eq_some.1 h).2) ▸ hV.float _
  case float => exact h.2 ▸ hV.float _
  case string => exact h.2 ▸ hV.string _

/-- What a type stores a value as satisfies `V` if the value does. -/
theorem adapt? {T : ValueType} {v w : Value} (hv : V v) (h : T.adapt? v = some w) : V w := by
  induction T generalizing v w with
  | any =>
    rw [ValueType.adapt?_any] at h
    cases h
    exact hv
  | void =>
    cases v <;> simp only [ValueType.adapt?, Option.some.injEq, reduceCtorEq] at h
    exact h ▸ hV.none
  | primitive name =>
    cases v
    case none =>
      cases h
      exact hV.none
    all_goals exact hV.adaptPrimitive? h
  | list element ih =>
    cases v <;> simp only [ValueType.adapt?, Option.some.injEq, reduceCtorEq] at h
    case none => exact h ▸ hV.none
    case list vs =>
      obtain ⟨ws, hws, rfl⟩ := Option.map_eq_some_iff.1 h
      refine hV.list.2 ?_
      have hvs := hV.list.1 hv
      clear hv h
      induction vs generalizing ws with
      | nil =>
        cases hws
        exact fun _ hmem => absurd hmem List.not_mem_nil
      | cons v vs ihvs =>
        rw [List.mapM_cons] at hws
        obtain ⟨w, hw, hws⟩ := Option.bind_eq_some_iff.1 hws
        obtain ⟨ws, hrest, hws⟩ := Option.bind_eq_some_iff.1 hws
        cases hws
        rintro x (_ | ⟨_, hx⟩)
        · exact ih (hvs v List.mem_cons_self) hw
        · exact ihvs ws hrest (fun y hy => hvs y (List.mem_cons_of_mem _ hy)) x hx
  | object | task =>
    cases v <;> simp only [ValueType.adapt?, Option.some.injEq, reduceCtorEq] at h <;>
      exact h ▸ by first | exact hV.none | exact hV.object _ | exact hV.task _
  | host typeName =>
    cases v <;> simp only [ValueType.adapt?, Option.some.injEq, reduceCtorEq,
      Option.ite_none_right_eq_some] at h
    case none => exact h ▸ hV.none
    case host => exact h.2 ▸ hv

theorem make {depth : Nat} {name : String} {constant : Bool} {type : ValueType} {value : Value}
    {x : Variable} (hvalue : V value) (h : Variable.make depth name constant type value = .ok x) :
    V x.value := by
  obtain ⟨stored, hs, h⟩ := exists_ok_of_bind h
  cases h
  exact hV.adapt? hvalue (ValueType.adaptAs_eq_ok hs)

theorem assign {x y : Variable} {value : Value} (hvalue : V value) (h : x.assign value = .ok y) :
    V y.value := by
  unfold Variable.assign at h
  split at h
  · cases h
  · obtain ⟨stored, hs, h⟩ := exists_ok_of_bind h
    cases h
    exact hV.adapt? hvalue (ValueType.adaptAs_eq_ok hs)

end ValueLaws

/-! ## The heap -/

namespace Heap.Stocked

variable {V : Value → Prop} {h : Heap}

theorem of_all (hV : ∀ v, V v) (h : Heap) : h.Stocked V := ⟨fun _ _ x _ => hV x.value, .inr hV⟩

theorem field? (hh : h.Stocked V) {ref : Nat} {name : String} {v : Value}
    (hv : h.field? ref name = some v) : V v := by
  obtain ⟨x, hx, rfl⟩ := Option.map_eq_some_iff.1 hv
  exact hh.fields ref name x hx

theorem entries (hh : h.Stocked V) {ref : Nat} {name : String} {v : Value}
    (hv : (name, v) ∈ h.entries ref) : V v := by
  obtain ⟨⟨key, x⟩, hx, heq⟩ := List.mem_map.1 hv
  cases heq
  exact hh.fields ref _ x (Table.mem_entries.1 hx)

theorem setFields (hh : h.Stocked V) (ref : Nat) {fields : Table String Variable}
    (hfields : ∀ name x, fields.find? name = some x → V x.value) :
    (h.setFields ref fields).Stocked V := by
  refine ⟨fun key name x hx => ?_, hh.hosts⟩
  unfold Heap.setFields Heap.fields at hx
  dsimp only at hx
  rw [Array.getElem?_setIfInBounds] at hx
  split at hx
  · split at hx
    · exact hfields name x hx
    · cases hx
  · exact hh.fields key name x hx

theorem newObject (hh : h.Stocked V) {fields : Table String Variable}
    (hfields : ∀ name x, fields.find? name = some x → V x.value) :
    (h.newObject fields).2.Stocked V := by
  refine ⟨fun key name x hx => ?_, hh.hosts⟩
  unfold Heap.newObject Heap.fields at hx
  dsimp only at hx
  rw [Array.getElem?_push] at hx
  split at hx
  · exact hfields name x hx
  · exact hh.fields key name x hx

theorem assignField (hV : ValueLaws V) (hh : h.Stocked V) {ref : Nat} {name : String} {value : Value}
    (hvalue : V value) {h' : Heap} (hassign : h.assignField ref name value = .ok (some h')) :
    h'.Stocked V := by
  unfold Heap.assignField at hassign
  split at hassign
  · cases hassign
  · next x hx =>
    obtain ⟨y, hy, hassign⟩ := exists_ok_of_bind hassign
    cases hassign
    refine hh.setFields ref fun key z hz => ?_
    rw [Table.find?_insert] at hz
    split at hz
    · cases hz
      exact hV.assign hvalue hy
    · exact hh.fields ref key z hz

end Heap.Stocked

/-! ## Scopes -/

namespace Scope.Stocked

variable {V : Value → Prop} {made : List ScriptFunction} {c d : Scope}

theorem fresh (parent : Option ScopeId) (depth : Nat) : (Scope.fresh parent depth).Stocked V made :=
  ⟨fun _ _ h => (nomatch h), fun _ _ h => (nomatch h), fun _ _ h => (nomatch h)⟩

/-- Only what a scope binds counts. -/
theorem of_bindings (h : c.Stocked V made) (hlocals : d.locals = c.locals)
    (hfunctions : d.functions = c.functions) (himplementations : d.implementations = c.implementations) :
    d.Stocked V made := by
  obtain ⟨h₁, h₂, h₃⟩ := h
  exact ⟨hlocals ▸ h₁, hfunctions ▸ h₂, himplementations ▸ h₃⟩

theorem insert_local (h : c.Stocked V made) (name : String) {x : Variable} (hx : V x.value) :
    ({ c with locals := c.locals.insert name x } : Scope).Stocked V made := by
  refine ⟨fun key y hy => ?_, h.functions, h.implementations⟩
  dsimp only at hy
  rw [Table.find?_insert] at hy
  split at hy
  · cases hy
    exact hx
  · exact h.locals key y hy

theorem insert_function (h : c.Stocked V made) (name : String) {f : ScriptFunction}
    (hf : f.MadeIn made) :
    ({ c with functions := c.functions.insert name (.script f) } : Scope).Stocked V made := by
  refine ⟨h.locals, fun key k hk => ?_, h.implementations⟩
  dsimp only at hk
  rw [Table.find?_insert] at hk
  split at hk
  · cases hk
    exact ⟨f, rfl, hf⟩
  · exact h.functions key k hk

theorem insert_implementation (h : c.Stocked V made) (name : String) {i : Implementation}
    (hi : i.MadeIn made) :
    ({ c with implementations := c.implementations.insert name i } : Scope).Stocked V made := by
  refine ⟨h.locals, h.functions, fun key j hj => ?_⟩
  dsimp only at hj
  rw [Table.find?_insert] at hj
  split at hj
  · cases hj
    exact hi
  · exact h.implementations key j hj

/-- A scope takes over bindings of a child. -/
theorem absorb (h : c.Stocked V made) (hd : d.Stocked V made) (id : ScopeId) :
    (c.absorb id d).Stocked V made := by
  have hmerge {α : Type} {t u : Table String α} {keep : String → α → Bool} {name : String} {a : α}
      (h : (t.merge (u.filter keep)).find? name = some a) :
      t.find? name = some a ∨ u.find? name = some a := by
    rw [Table.find?_merge, Table.find?_filter, Option.or_eq_some_iff] at h
    exact h.imp_right fun h => (Option.filter_eq_some_iff.1 h.2).1
  refine ⟨fun name x hx => ?_, fun name k hk => ?_, fun name i hi => ?_⟩
  · exact (hmerge hx).elim (h.locals name x) (hd.locals name x)
  · exact (hmerge hk).elim (h.functions name k) (hd.functions name k)
  · exact (hmerge hi).elim (h.implementations name i) (hd.implementations name i)

/-- What a scope binds the name of a call to was made. -/
theorem callable (h : c.Stocked V made) {name : String} {member : Option (String × String)}
    {k : Callable} (hk : c.callable? name member = some k) : ∃ f, k = .script f ∧ f.MadeIn made := by
  unfold Scope.callable? at hk
  rcases Option.or_eq_some_iff.1 hk with hk | ⟨-, hk⟩
  · exact h.functions name k hk
  · cases hm : member with
    | none =>
      rw [hm] at hk
      cases hk
    | some pair =>
      obtain ⟨owner, method⟩ := pair
      rw [hm] at hk
      simp only [Option.bind_eq_bind, Option.bind_some, Option.bind_eq_some_iff] at hk
      obtain ⟨i, hi, f, hf, hk⟩ := hk
      cases hk
      exact ⟨f, rfl, h.implementations owner i hi method f hf⟩

theorem append (h : c.Stocked V made) (more : List ScriptFunction) : c.Stocked V (made ++ more) := by
  refine ⟨h.locals, fun name k hk => ?_, fun name i hi => (h.implementations name i hi).append more⟩
  obtain ⟨f, rfl, hf⟩ := h.functions name k hk
  exact ⟨f, rfl, hf.append more⟩

end Scope.Stocked

namespace ScopeTree

variable {V : Value → Prop} {made : List ScriptFunction} {t u : ScopeTree} {id : ScopeId}

/-- All scopes are stocked. -/
abbrev Stocked (V : Value → Prop) (made : List ScriptFunction) (t : ScopeTree) : Prop :=
  t.All (Scope.Stocked V made)

namespace Stocked

theorem initial : ScopeTree.initial.Stocked V made := fun x c hc => by
  cases eq_fresh_of_find?_initial hc
  exact .fresh _ _

theorem defineVariable (h : t.Stocked V made) {x : Variable} (hx : V x.value)
    (hu : t.defineVariable id x = .ok u) : u.Stocked V made := by
  obtain ⟨c, -, hu⟩ := find?_of_get_bind hu
  split at hu
  · cases hu
  · cases hu
    exact h.modify fun _ _ hc => hc.insert_local _ hx

theorem declare (hV : ValueLaws V) (h : t.Stocked V made) {name : String} {constant : Bool}
    {type : ValueType} {value : Value} (hvalue : V value)
    (hu : t.declare id name constant type value = .ok u) : u.Stocked V made := by
  obtain ⟨c, -, hu⟩ := find?_of_get_bind hu
  obtain ⟨x, hx, hu⟩ := exists_ok_of_bind hu
  exact h.defineVariable (hV.make hvalue hx) hu

theorem assignVariable (hV : ValueLaws V) (h : t.Stocked V made) {name : String} {value : Value}
    (hvalue : V value) (hu : t.assignVariable id name value = .ok u) : u.Stocked V made := by
  obtain ⟨-, -, hu⟩ := find?_of_get_bind hu
  split at hu
  · cases hu
  · next holder x _ =>
    obtain ⟨y, hy, hu⟩ := exists_ok_of_bind hu
    cases hu
    exact h.modify fun _ _ hc => hc.insert_local _ (hV.assign hvalue hy)

theorem defineFunction (h : t.Stocked V made) {f : ScriptFunction} (hf : f.MadeIn made)
    (hu : t.defineFunction id f = .ok u) : u.Stocked V made := by
  obtain ⟨c, -, hu⟩ := find?_of_get_bind hu
  split at hu
  · cases hu
  · cases hu
    exact h.modify fun _ _ hc => hc.insert_function _ hf

theorem defineImplementation (h : t.Stocked V made) {i : Implementation}
    (hi : i.MadeIn made) (hu : t.defineImplementation id i = .ok u) : u.Stocked V made := by
  obtain ⟨c, -, hu⟩ := find?_of_get_bind hu
  split at hu
  · cases hu
  · cases hu
    exact h.modify fun _ _ hc => hc.insert_implementation _ hi

theorem markExecuted (h : t.Stocked V made) {node : Nat} (hu : t.markExecuted id node = .ok u) :
    u.Stocked V made := by
  obtain ⟨c, -, hu⟩ := find?_of_get_bind hu
  cases hu
  exact h.modify fun _ _ hc => hc.of_bindings rfl rfl rfl

theorem clearExecuted (h : t.Stocked V made) {n : Node} (hu : t.clearExecuted id n = .ok u) :
    u.Stocked V made := by
  obtain ⟨c, -, hu⟩ := find?_of_get_bind hu
  split at hu
  · cases hu
    exact h
  · cases hu
    exact h.modify fun _ _ hc => hc.of_bindings rfl rfl rfl

theorem create {inner : ScopeId} (h : t.Stocked V made) (hu : t.create id = .ok (inner, u)) :
    u.Stocked V made :=
  All.create h (fun _ _ => .fresh _ _) (fun _ _ hc => hc.of_bindings rfl rfl rfl) hu

theorem detach {c : Scope} (h : t.Stocked V made) (hc : t.find? id = some c) :
    (t.detach id c).Stocked V made := All.detach h fun _ _ _ _ hd => hd.absorb (h id c hc) id

theorem release {r : Release} (h : t.Stocked V made) (hu : t.release id = .ok (r, u)) :
    u.Stocked V made :=
  of_release (fun _ _ _ h hc => detach h hc)
    (fun _ _ _ h _ => All.mark h (fun _ hc => hc.of_bindings rfl rfl rfl)
      fun _ _ hc => hc.of_bindings rfl rfl rfl) h hu

theorem beginTask (h : t.Stocked V made) (hu : t.beginTask id = .ok u) : u.Stocked V made := by
  obtain ⟨c, -, hu⟩ := find?_of_get_bind hu
  cases hu
  exact h.modify fun _ _ hc => hc.of_bindings rfl rfl rfl

theorem endTask (h : t.Stocked V made) (id : ScopeId) : (t.endTask id).Stocked V made :=
  of_endTask (fun _ _ _ h hc => detach h hc)
    (fun _ _ h => All.modify h fun _ _ hc => hc.of_bindings rfl rfl rfl) h

theorem findVariable (h : t.Stocked V made) {name : String} {x : Variable}
    (hx : t.findVariable id name false = .ok (some x)) : V x.value := by
  obtain ⟨-, -, hx⟩ := find?_of_get_bind hx
  obtain ⟨⟨holder, y⟩, hnearest, rfl⟩ := Option.map_eq_some_iff.1 (Except.ok.inj hx)
  obtain ⟨c, hc, hy⟩ := find?_of_nearestVariable? hnearest
  exact (h holder c hc).locals name y hy

theorem callable {name : String} {k : Callable} (h : t.Stocked V made)
    (hk : t.callable? id name false = some k) : ∃ f, k = .script f ∧ f.MadeIn made := by
  obtain ⟨x, c, member, hc, hk⟩ := exists_of_callable? hk
  exact (h x c hc).callable hk

end Stocked

end ScopeTree

/-! ## States -/

namespace State.Stocked

variable {V : Value → Prop} {made : List ScriptFunction} {s : State}

theorem initial : State.initial.Stocked V [] where
  scopes := ScopeTree.Stocked.initial
  world := ⟨⟨fun _ _ _ h => (nomatch h), .inl rfl⟩, fun _ h => (nomatch h)⟩
  frames _ h := nomatch h
  signatures _ _ h := nomatch h
  next := rfl
  outcomes _ _ _ h := nomatch h
  parked _ h := nomatch h

theorem withScopes (h : s.Stocked V made) {t : ScopeTree} (ht : t.Stocked V made) :
    ({ s with scopes := t } : State).Stocked V made := { h with scopes := ht }

theorem withThread (h : s.Stocked V made) {r : Thread} (hr : ∀ f ∈ r.frames, f.Stocked V) :
    ({ s with thread := r } : State).Stocked V made := { h with frames := hr }

theorem withWorld (h : s.Stocked V made) {w : World} (hw : w.Stocked V) :
    ({ s with world := w } : State).Stocked V made := { h with world := hw }

theorem signed (h : s.Stocked V made) {id : Nat} {signature : Signature}
    (hsignature : signature.Stocked V made id) :
    ({ s with signatures := s.signatures.insert id signature } : State).Stocked V made := by
  refine { h with signatures := fun key other hother => ?_ }
  dsimp only at hother
  rw [Table.find?_insert] at hother
  split at hother
  · next hkey =>
    cases hother
    exact hkey ▸ hsignature
  · exact h.signatures key other hother

/-- A function is made under the next id. -/
theorem grown (h : s.Stocked V made) {f : ScriptFunction} (hf : f.id = s.nextFunction) :
    ({ s with nextFunction := s.nextFunction + 1 } : State).Stocked V (made ++ [f]) ∧
      f.MadeIn (made ++ [f]) := by
  refine ⟨⟨fun x c hc => (h.scopes x c hc).append [f], h.world, h.frames, fun id signature hs => ?_, ?_,
    h.outcomes, h.parked⟩, ?_⟩
  · obtain ⟨⟨g, hg, hreturns⟩, hdefaults⟩ := h.signatures id signature hs
    refine ⟨⟨g, ?_, hreturns⟩, hdefaults⟩
    rw [List.getElem?_append_left (List.getElem?_eq_some_iff.1 hg).1, hg]
  · rw [List.length_append, ← h.next, List.length_singleton]
  · unfold ScriptFunction.MadeIn
    rw [hf, h.next]
    simp

end State.Stocked

/-! ## Computations -/

namespace Stock

variable {V : Value → Prop} {made more : List ScriptFunction} {α β : Type}

/-- The state is stocked with the functions `made` and maybe others that were made after them. -/
def At (V : Value → Prop) (made : List ScriptFunction) (s : State) : Prop :=
  ∃ more, s.Stocked V (made ++ more)

theorem At.self {s : State} (h : s.Stocked V made) : At V made s := ⟨[], by rwa [List.append_nil]⟩

theorem At.of_append {s : State} (h : At V (made ++ more) s) : At V made s := by
  obtain ⟨rest, h⟩ := h
  exact ⟨more ++ rest, by rwa [← List.append_assoc]⟩

/-- From a stocked state, `x` and `x'` end alike in a stocked state, and `Q` holds of the value and the
functions that were made until then. -/
structure Yields (V : Value → Prop) (made : List ScriptFunction) (Q : List ScriptFunction → α → Prop)
    (x x' : Eval α) : Prop where
  ends : Ensures (At V made) x x' (fun a s => ∃ more, s.Stocked V (made ++ more) ∧ Q (made ++ more) a)
    (fun _ => At V made) fun _ => At V made

/-- From a stocked state, `x` and `x'` end alike in a stocked state, and `Q` holds of the value. -/
abbrev Keeps (V : Value → Prop) (made : List ScriptFunction) (Q : α → Prop) (x x' : Eval α) : Prop :=
  Yields V made (fun _ => Q) x x'

/-- What is asked of the value is nothing. -/
abbrev Any : α → Prop := fun _ => True

variable {Q Q' : α → Prop} {S : β → Prop} {x x' : Eval α}

namespace Yields

variable {P : List ScriptFunction → α → Prop}

/-- Goes on with the functions that were made until then. -/
theorem bind {f f' : α → Eval β} {R : List ScriptFunction → β → Prop} (hx : Yields V made P x x')
    (hf : ∀ more a, P (made ++ more) a → Yields V (made ++ more) R (f a) (f' a)) :
    Yields V made R (x >>= f) (x' >>= f') := by
  refine ⟨hx.ends.bind fun a => .rec_state fun s hs => ?_⟩
  obtain ⟨more, hstocked, ha⟩ := hs
  refine (hf more a ha).ends.mono (fun _ h => h ▸ .self hstocked) (fun b t ht => ?_)
    (fun _ _ => .of_append) fun _ _ => .of_append
  obtain ⟨rest, ht, hb⟩ := ht
  refine ⟨more ++ rest, ?_⟩
  rw [← List.append_assoc]
  exact ⟨ht, hb⟩

/-- A result that is read off the state. -/
theorem asks {r : State → Except Error α}
    (h : ∀ more s a, s.Stocked V (made ++ more) → r s = .ok a → P (made ++ more) a) :
    Yields V made P (fun s => Step.ofExcept (r s) s) fun s => Step.ofExcept (r s) s := by
  refine ⟨⟨fun s hs => ⟨rfl, ?_⟩⟩⟩
  obtain ⟨more, hs⟩ := hs
  cases hr : r s with
  | ok a => exact ⟨more, hs, h more s a hs hr⟩
  | error e => exact ⟨more, hs⟩

theorem mapErrorWith {f : State → Error → Option Error} (hx : Yields V made P x x') :
    Yields V made P (x.mapErrorWith f) (x'.mapErrorWith f) :=
  ⟨hx.ends.mapErrorWith fun _ _ _ hs _ => hs⟩

theorem mapError {f : Error → Error} (hx : Yields V made P x x') :
    Yields V made P (x.mapError f) (x'.mapError f) := hx.mapErrorWith

end Yields

namespace Keeps

theorem weaken (hx : Keeps V made Q x x') (h : ∀ a, Q a → Q' a) : Keeps V made Q' x x' :=
  ⟨hx.ends.weaken fun a _ hs => hs.imp fun _ hs => ⟨hs.1, h a hs.2⟩⟩

theorem any (hx : Keeps V made Q x x') : Keeps V made Any x x' := hx.weaken fun _ _ => trivial

theorem pure {a : α} (h : Q a) : Keeps V made Q (pure a) (pure a) :=
  ⟨.pure fun _ hs => hs.imp fun _ hs => ⟨hs, h⟩⟩

theorem fail (e : Error) : Keeps V made Q (Step.fail e) (Step.fail e) := ⟨.fail fun _ => id⟩

theorem failWith (f : State → Option Error) : Keeps V made Q (Step.failWith f) (Step.failWith f) :=
  ⟨.failWith fun _ _ hs _ => hs⟩

theorem crash : Keeps V made Q Step.crash Step.crash := ⟨.crash fun _ => id⟩

theorem block : Keeps V made Q Step.block Step.block := ⟨.block fun _ => id⟩

theorem exhaust : Keeps V made Q Step.exhaust Step.exhaust := ⟨.exhaust⟩

theorem ofExcept {r : Except Error α} (h : ∀ a, r = .ok a → Q a) :
    Keeps V made Q (Step.ofExcept r) (Step.ofExcept r) := by
  cases r with
  | ok a => exact .pure (h a rfl)
  | error e => exact .fail e

theorem ofOption {r : Option α} (h : ∀ a, r = some a → Q a) :
    Keeps V made Q (Step.ofOption r) (Step.ofOption r) := by
  cases r with
  | some a => exact .pure (h a rfl)
  | none => exact .exhaust

theorem bind {f f' : α → Eval β} (hx : Keeps V made Q x x')
    (hf : ∀ a, Q a → Keeps V made S (f a) (f' a)) : Keeps V made S (x >>= f) (x' >>= f') :=
  ⟨hx.ends.bind fun a => .rec_state fun s hs => by
    obtain ⟨more, hs, ha⟩ := hs
    exact (hf a ha).ends.strengthen fun _ h => h ▸ ⟨more, hs⟩⟩

theorem map {f : α → β} (hx : Keeps V made Q x x') (h : ∀ a, Q a → S (f a)) :
    Keeps V made S (f <$> x) (f <$> x') :=
  ⟨hx.ends.map fun a _ hs => hs.imp fun _ hs => ⟨hs.1, h a hs.2⟩⟩

/-- Both computations go on with their state. -/
theorem get_bind {k k' : State → Eval α} (h : ∀ t, At V made t → Keeps V made Q (k t) (k' t)) :
    Keeps V made Q (Step.get >>= k) (Step.get >>= k') :=
  ⟨.get_bind fun t ht => (h t ht).ends.strengthen fun _ h => h ▸ ht⟩

theorem gets {f : State → α} (h : ∀ s, At V made s → Q (f s)) :
    Keeps V made Q (Step.gets f) (Step.gets f) :=
  ⟨.gets fun s hs => hs.imp fun _ ht => ⟨ht, h s hs⟩⟩

theorem modify {f : State → State}
    (h : ∀ more s, s.Stocked V (made ++ more) → (f s).Stocked V (made ++ more)) :
    Keeps V made Any (Step.modify f) (Step.modify f) :=
  ⟨.modify fun s hs => hs.imp fun more hs => ⟨h more s hs, trivial⟩⟩

theorem mapErrorWith {f : State → Error → Option Error} (hx : Keeps V made Q x x') :
    Keeps V made Q (x.mapErrorWith f) (x'.mapErrorWith f) := Yields.mapErrorWith hx

theorem mapError {f : Error → Error} (hx : Keeps V made Q x x') :
    Keeps V made Q (x.mapError f) (x'.mapError f) := Yields.mapError hx

theorem attempt (hx : Keeps V made Q x x') :
    Keeps V made (fun r => ∀ a, r = .ok a → Q a) (x.attempt : Eval (Except Error α)) x'.attempt := by
  refine ⟨hx.ends.attempt.weaken fun r s hs => ?_⟩
  cases r with
  | ok a =>
    obtain ⟨more, hs, ha⟩ := hs
    exact ⟨more, hs, fun _ h => by cases h; exact ha⟩
  | error e =>
    obtain ⟨more, hs⟩ := hs
    exact ⟨more, hs, fun _ h => by cases h⟩

theorem thenAlways {tidy tidy' : Eval β} (hx : Keeps V made Q x x')
    (ht : Keeps V made S tidy tidy') :
    Keeps V made Q (x.thenAlways tidy) (x'.thenAlways tidy') := by
  refine ⟨hx.ends.thenAlways (fun a => .rec_state fun s hs => ?_) fun _ => ?_⟩
  · obtain ⟨more, hs, ha⟩ := hs
    exact ht.ends.mono (fun _ h => h ▸ ⟨more, hs⟩) (fun _ _ h => h.imp fun _ h => ⟨h.1, ha⟩)
      (fun _ _ => id) fun _ _ => id
  · exact ht.ends.weaken fun _ _ h => h.imp fun _ h => h.1

/-- A round that ends the loop ends it with a value that satisfies `Q`. -/
abbrev Last (Q : α → Prop) : Option α → Prop := fun r => ∀ a, r = some a → Q a

theorem rounded {round round' : Eval (Option α)} (h : Keeps V made (Last Q) round round') :
    Ensures (At V made) round round'
      (Ensures.Rounded (fun a s => ∃ more, s.Stocked V (made ++ more) ∧ Q a) (At V made))
      (fun _ => At V made) fun _ => At V made := by
  refine h.ends.weaken fun r s hs => ?_
  obtain ⟨more, hs, ha⟩ := hs
  cases r with
  | some a => exact ⟨more, hs, ha a rfl⟩
  | none => exact ⟨more, hs⟩

theorem loop {limit : Nat} {round round' : Eval (Option α)} (h : Keeps V made (Last Q) round round') :
    Keeps V made Q (Step.loop limit round) (Step.loop limit round') := ⟨.loop h.rounded⟩

theorem firstOf {l : List β} {round round' : β → Eval (Option α)}
    (h : ∀ b ∈ l, Keeps V made (Last Q) (round b) (round' b)) :
    Keeps V made (Last Q) (Step.firstOf round l) (Step.firstOf round' l) := by
  refine ⟨(Ensures.firstOf fun b hb => (h b hb).rounded).weaken fun r s hs => ?_⟩
  cases r with
  | some a =>
    obtain ⟨more, hs, ha⟩ := hs
    exact ⟨more, hs, fun _ h => by cases h; exact ha⟩
  | none =>
    obtain ⟨more, hs⟩ := hs
    exact ⟨more, hs, fun _ h => by cases h⟩

theorem mapM {l : List β} {f f' : β → Eval α} (h : ∀ b ∈ l, Keeps V made Q (f b) (f' b)) :
    Keeps V made (fun r => ∀ a ∈ r, Q a) (l.mapM f) (l.mapM f') := by
  induction l with
  | nil => exact .pure fun _ h => nomatch h
  | cons b l ih =>
    rw [List.mapM_cons, List.mapM_cons]
    refine (h b List.mem_cons_self).bind fun a ha => ?_
    refine (ih fun b hb => h b (List.mem_cons_of_mem _ hb)).bind fun r hr => .pure ?_
    rintro c (_ | ⟨_, hc⟩)
    · exact ha
    · exact hr c hc

theorem foldlM {l : List β} {f f' : α → β → Eval α}
    (h : ∀ a, Q a → ∀ b ∈ l, Keeps V made Q (f a b) (f' a b)) {a : α} (ha : Q a) :
    Keeps V made Q (l.foldlM f a) (l.foldlM f' a) := by
  induction l generalizing a with
  | nil => exact .pure ha
  | cons b l ih =>
    rw [List.foldlM_cons, List.foldlM_cons]
    exact (h a ha b List.mem_cons_self).bind fun a ha =>
      ih (fun a ha b hb => h a ha b (List.mem_cons_of_mem _ hb)) ha

theorem forM {l : List β} {f f' : β → Eval PUnit} (h : ∀ b ∈ l, Keeps V made Any (f b) (f' b)) :
    Keeps V made Any (l.forM f) (l.forM f') := by
  induction l with
  | nil => exact .pure trivial
  | cons b l ih =>
    exact (h b List.mem_cons_self).bind fun _ _ => ih fun b hb => h b (List.mem_cons_of_mem _ hb)

/-! ## Parts of the state -/

theorem askScopes {f : ScopeTree → Except Error α}
    (h : ∀ more t a, t.Stocked V (made ++ more) → f t = .ok a → Q a) :
    Keeps V made Q (Eval.askScopes f) (Eval.askScopes f) :=
  Yields.asks fun more _ a hs ha => h more _ a hs.scopes ha

theorem updateScopes {f : ScopeTree → Except Error (α × ScopeTree)}
    (h : ∀ more t u a, t.Stocked V (made ++ more) → f t = .ok (a, u) → u.Stocked V (made ++ more)) :
    Keeps V made Any (Eval.updateScopes f) (Eval.updateScopes f) := by
  exact ⟨.update (fun _ _ _ hs hr => hs.imp fun more hs =>
    ⟨hs.withScopes (h more _ _ _ hs.scopes hr), trivial⟩) fun _ _ hs _ => hs⟩

theorem changeScopes {f : ScopeTree → Except Error ScopeTree}
    (h : ∀ more t u, t.Stocked V (made ++ more) → f t = .ok u → u.Stocked V (made ++ more)) :
    Keeps V made Any (Eval.changeScopes f) (Eval.changeScopes f) := by
  refine updateScopes fun more t u _ ht hu => ?_
  obtain ⟨u, hr, hu⟩ := exists_ok_of_bind hu
  cases hu
  exact h more t _ ht hr

theorem changeThread {f : Thread → Thread}
    (h : ∀ r, (∀ frame ∈ r.frames, frame.Stocked V) → ∀ frame ∈ (f r).frames, frame.Stocked V) :
    Keeps V made Any (Eval.changeThread f) (Eval.changeThread f) :=
  modify fun _ _ hs => hs.withThread (h _ hs.frames)

theorem onBreak {f : Thread → Thread}
    (h : ∀ r, (∀ frame ∈ r.frames, frame.Stocked V) → ∀ frame ∈ (f r).frames, frame.Stocked V)
    (hx : Keeps V made Q x x') : Keeps V made Q (x.onBreak f) (x'.onBreak f) :=
  ⟨hx.ends.whenCrashed (fun _ hs => hs.imp fun _ hs => hs.withThread (h _ hs.frames)) fun _ => id⟩

theorem guarded {f : Thread → Thread} (h : ∀ r, (f r).frames = r.frames) (hx : Keeps V made Q x x') :
    Keeps V made Q (x.guarded f) (x'.guarded f) := by
  have hf (r : Thread) (hr : ∀ frame ∈ r.frames, frame.Stocked V) : ∀ frame ∈ (f r).frames,
      frame.Stocked V := (h r).symm ▸ hr
  exact (hx.onBreak hf).thenAlways (changeThread hf)

end Keeps

/-! ## Runs from one state -/

/-- From a stocked state, both computations do the same. -/
theorem Yields.eq {P : List ScriptFunction → α → Prop} (h : Yields V made P x x') {s : State}
    (hs : s.Stocked V made) : x' s = x s := (h.ends.ends s (.self hs)).1

theorem Yields.at_end {P : List ScriptFunction → α → Prop} (h : Yields V made P x x') {s t : State}
    (hs : s.Stocked V made) (ht : (x s).state? = some t) : At V made t := by
  have hends := (h.ends.ends s (.self hs)).2
  cases ho : x s <;> rw [ho] at hends ht <;> cases ht
  case ok => exact hends.imp fun _ h => h.1
  case error | crashed | blocked => exact hends

theorem Yields.value {P : List ScriptFunction → α → Prop} (h : Yields V made P x x') {s t : State}
    (hs : s.Stocked V made) {a : α} (ha : x s = .ok a t) :
    ∃ more, t.Stocked V (made ++ more) ∧ P (made ++ more) a := by
  have hends := (h.ends.ends s (.self hs)).2
  rwa [ha] at hends

end Stock

end TreeScript
