import TreeScript.Proofs.Eval.Expression
import TreeScript.Proofs.Scope.Orderly
import TreeScript.Proofs.Scope.Unmarked

/-!
# Scopes beside an image of them

One of two runs works on scopes `t` and the other on `e t`, where no operation but those on markers
sees the map `e`. Between two steps the scopes are orderly and quiet (`Mirrors`), after a visit they
are as its jump left them (`Ends`), and after a failure nothing is known but that one is the image
of the other (`Image`).

* `Mirrors.scopeRelation`: expressions do the same on both sides.
* `Mirrors.inNewScope`: so does a computation in a new scope if the computation itself does.
-/

namespace TreeScript

open Step (Alike)
open ScopeTree (Orderly Quiet After Transparent Harmless)

/-- The second scopes are the image of the first. -/
def Image (e : ScopeTree → ScopeTree) (t u : ScopeTree) : Prop := u = e t

/-- Scopes between two steps of a program, and their image. -/
structure Mirrors (e : ScopeTree → ScopeTree) (program : Node) (shape t u : ScopeTree) : Prop where
  image : Image e t u
  orderly : Orderly program shape t
  quiet : Quiet program t

/-- Scopes after a visit in the scope `x` that could reach the nodes `l`, and their image. -/
structure Ends (e : ScopeTree → ScopeTree) (program : Node) (shape : ScopeTree) (x : ScopeId)
    (l : List Node) (flow : Flow) (t u : ScopeTree) : Prop where
  image : Image e t u
  orderly : Orderly program shape t
  after : After program x l flow t

/-- Scopes after a visit whose flow is not known any more. -/
def Spent (e : ScopeTree → ScopeTree) (program : Node) (shape : ScopeTree) (x : ScopeId)
    (l : List Node) (t u : ScopeTree) : Prop := ∃ flow, Ends e program shape x l flow t u

variable {e : ScopeTree → ScopeTree} {program : Node} {shape t u : ScopeTree} {x p : ScopeId}
  {l l' : List Node} {flow : Flow} {α : Type}

theorem Ends.mono (hl : l ⊆ l') (h : Ends e program shape x l flow t u) :
    Ends e program shape x l' flow t u := ⟨h.image, h.orderly, h.after.mono hl⟩

theorem Ends.mirrors (hf : ∀ value, flow ≠ .returned value)
    (h : Ends e program shape x l flow t u) : Mirrors e program shape t u :=
  ⟨h.image, h.orderly, h.after.quiet hf⟩

theorem Mirrors.ends (hf : flow.isJump = false) (h : Mirrors e program shape t u) :
    Ends e program shape x l flow t u := ⟨h.image, h.orderly, h.quiet.after hf⟩

/-! ## Functions that are found -/

theorem ScopeTree.mem_lineage {id : ScopeId} {l : List (ScopeId × Scope)} {found : ScopeId × Scope}
    (h : found ∈ lineage id l) : found ∈ l := by
  induction l generalizing id with
  | nil => cases h
  | cons b l ih =>
    obtain ⟨i, s⟩ := b
    unfold lineage at h
    split at h
    · rcases List.mem_cons.1 h with rfl | h
      · exact List.mem_cons_self
      · cases hp : s.parent with
        | none =>
          rw [hp] at h
          cases h
        | some q =>
          rw [hp] at h
          exact List.mem_cons_of_mem _ (ih h)
    · exact List.mem_cons_of_mem _ (ih h)

/-- A scope binds the name of a call to a function of the program. -/
theorem Scope.Proper.callable {s : Scope} (h : s.Proper program) {name : String}
    {member : Option (String × String)} {c : Callable} (hc : s.callable? name member = some c) :
    ∃ f, c = .script f ∧ program.Declares f := by
  unfold Scope.callable? at hc
  rcases Option.or_eq_some_iff.1 hc with hc | ⟨-, hc⟩
  · exact h.functions name c hc
  · cases hm : member with
    | none =>
      rw [hm] at hc
      cases hc
    | some pair =>
      obtain ⟨owner, method⟩ := pair
      rw [hm] at hc
      simp only [Option.bind_eq_bind, Option.bind_some, Option.bind_eq_some_iff] at hc
      obtain ⟨i, hi, f, hf, hc⟩ := hc
      cases hc
      exact ⟨f, rfl, h.members owner i method f hi hf⟩

/-- What the name of a call stands for is bound in some scope. -/
theorem ScopeTree.exists_of_callable? {id : ScopeId} {name : String} {c : Callable}
    (hc : t.callable? id name false = some c) :
    ∃ x s member, t.find? x = some s ∧ s.callable? name member = some c := by
  unfold ScopeTree.callable? ScopeTree.nearest? at hc
  obtain ⟨⟨i, c'⟩, hnearest, rfl⟩ := Option.map_eq_some_iff.1 hc
  obtain ⟨⟨x, s⟩, hmem, hfound⟩ := List.exists_of_findSome?_eq_some hnearest
  obtain ⟨c'', hs, he⟩ := Option.map_eq_some_iff.1 hfound
  have hentry := List.mem_reverse.1 (ScopeTree.mem_lineage hmem)
  cases he
  exact ⟨_, s, _, Table.mem_entries.1 hentry, hs⟩

theorem ScopeTree.Orderly.callable (h : Orderly program shape t) {id : ScopeId} {name : String}
    {c : Callable} (hc : t.callable? id name false = some c) :
    ∃ f, c = .script f ∧ program.Declares f := by
  obtain ⟨x, s, member, hs, hc⟩ := ScopeTree.exists_of_callable? hc
  exact (h.proper x s hs).callable hc

/-! ## Operations on both sides -/

/-- An operation that leaves the scopes as they are but for a harmless change. -/
theorem Mirrors.sameResult (h : Mirrors e program shape t u) {r : Except Error ScopeTree}
    (hr : ∀ t', r = .ok t' → ∃ y f, Harmless program f ∧ t' = t.modify y f) :
    SameResult (Mirrors e program shape) r (r.map e) := by
  cases r with
  | error failure => exact .error
  | ok t' =>
    obtain ⟨y, f, hf, rfl⟩ := hr t' rfl
    exact .ok ⟨rfl, h.orderly.modify hf y, h.quiet.modify hf y⟩

namespace ScopeTree

theorem harmless_locals (f : Table String Variable → Table String Variable) :
    Harmless program fun s => { s with locals := f s.locals } :=
  ⟨fun _ => rfl, fun _ => rfl, fun _ h => ⟨h.idle, h.functions, h.members⟩⟩

theorem harmless_function {f : ScriptFunction} (hf : program.Declares f) (name : String) :
    Harmless program fun s => { s with functions := s.functions.insert name (.script f) } := by
  refine ⟨fun _ => rfl, fun _ => rfl, fun s hs => ⟨hs.idle, fun key c hc => ?_, hs.members⟩⟩
  rw [Table.find?_insert] at hc
  split at hc
  · cases hc
    exact ⟨f, rfl, hf⟩
  · exact hs.functions key c hc

theorem harmless_implementation {i : Implementation}
    (hi : ∀ name f, i.functions.find? name = some f → program.Declares f) (name : String) :
    Harmless program fun s => { s with implementations := s.implementations.insert name i } := by
  refine ⟨fun _ => rfl, fun _ => rfl, fun s hs => ⟨hs.idle, hs.functions, ?_⟩⟩
  intro owner j member f hj hf
  rw [Table.find?_insert] at hj
  split at hj
  · cases hj
    exact hi member f hf
  · exact hs.members owner j member f hj hf

theorem defineVariable_ok {id : ScopeId} {v : Variable} (h : t.defineVariable id v = .ok u) :
    ∃ y f, Harmless program f ∧ u = t.modify y f := by
  obtain ⟨s, -, h⟩ := exists_ok_of_bind h
  split at h
  · cases h
  · cases h
    exact ⟨id, _, harmless_locals (·.insert v.name v), rfl⟩

theorem declare_ok {id : ScopeId} {name : String} {constant : Bool} {type : ValueType}
    {value : Value} (h : t.declare id name constant type value = .ok u) :
    ∃ y f, Harmless program f ∧ u = t.modify y f := by
  obtain ⟨s, -, h⟩ := exists_ok_of_bind h
  obtain ⟨v, -, h⟩ := exists_ok_of_bind h
  exact defineVariable_ok h

theorem assignVariable_ok {id : ScopeId} {name : String} {value : Value}
    (h : t.assignVariable id name value = .ok u) :
    ∃ y f, Harmless program f ∧ u = t.modify y f := by
  obtain ⟨s, -, h⟩ := exists_ok_of_bind h
  split at h
  · cases h
  · rename_i holder v _
    obtain ⟨w, -, h⟩ := exists_ok_of_bind h
    cases h
    exact ⟨holder, _, harmless_locals (·.insert name w), rfl⟩

theorem defineFunction_ok {id : ScopeId} {f : ScriptFunction} (hf : program.Declares f)
    (h : t.defineFunction id f = .ok u) : ∃ y g, Harmless program g ∧ u = t.modify y g := by
  obtain ⟨s, -, h⟩ := exists_ok_of_bind h
  split at h
  · cases h
  · cases h
    exact ⟨id, _, harmless_function hf f.qualifiedName, rfl⟩

theorem defineImplementation_ok {id : ScopeId} {i : Implementation}
    (hi : ∀ name f, i.functions.find? name = some f → program.Declares f)
    (h : t.defineImplementation id i = .ok u) : ∃ y g, Harmless program g ∧ u = t.modify y g := by
  obtain ⟨s, -, h⟩ := exists_ok_of_bind h
  split at h
  · cases h
  · cases h
    exact ⟨id, _, harmless_implementation hi i.name, rfl⟩

end ScopeTree

/-- **Expressions.** What they do to the scopes of a program, they do to the image too. -/
theorem Mirrors.scopeRelation (he : Transparent e) :
    ScopeRelation program.Declares (Mirrors e program shape) where
  depth h id := by
    rw [h.image]
    exact he.depth _ id
  findVariable h id name localOnly := by
    rw [h.image]
    exact he.findVariable _ id name localOnly
  callable h id name := by
    rw [h.image]
    exact he.callable _ id name
  defineVariable h id v := by
    rw [h.image, he.defineVariable]
    exact h.sameResult fun _ => ScopeTree.defineVariable_ok
  assignVariable h id name v := by
    rw [h.image, he.assignVariable]
    exact h.sameResult fun _ => ScopeTree.assignVariable_ok
  defineFunction h id f hf := by
    rw [h.image, he.defineFunction]
    exact h.sameResult fun _ => ScopeTree.defineFunction_ok hf
  defineImplementation h id i hi := by
    rw [h.image, he.defineImplementation]
    exact h.sameResult fun _ => ScopeTree.defineImplementation_ok hi
  found h _ _ _ hc := h.orderly.callable hc

/-! ## Computations in scopes -/

theorem Eval.updateScopes_run {f : ScopeTree → Except Error (α × ScopeTree)} {s : State} {a : α}
    (h : f s.scopes = .ok (a, t)) : Eval.updateScopes f s = .ok a { s with scopes := t } := by
  unfold Eval.updateScopes Step.update
  dsimp only
  rw [h]

theorem Eval.changeScopes_run {f : ScopeTree → Except Error ScopeTree} {s : State}
    (h : f s.scopes = .ok t) : Eval.changeScopes f s = .ok () { s with scopes := t } :=
  updateScopes_run (congrArg (Except.map fun t => ((), t)) h)

theorem Eval.askScopes_run {f : ScopeTree → Except Error α} {s : State} {a : α}
    (h : f s.scopes = .ok a) : Eval.askScopes f s = .ok a s := by
  unfold Eval.askScopes
  rw [h]
  rfl

namespace Mirrors

variable (he : Transparent e)

include he

/-- Declaring a variable of a round. -/
theorem declare {id : ScopeId} {name : String} {constant : Bool} {type : ValueType}
    {value : Value} : Keeps (Mirrors e program shape) (Image e)
      (Eval.changeScopes fun t => t.declare id name constant type value)
      (Eval.changeScopes fun t => t.declare id name constant type value) :=
  Keeps.changeScopes (fun _ _ h => h.image) fun t u h => by
    rw [h.image, he.declare]
    exact h.sameResult fun _ => ScopeTree.declare_ok

/-- Forgetting markers, where nothing is known of the scopes. -/
theorem clearExecuted_image {id : ScopeId} {n : Node} : Keeps (Image e) (Image e)
    (Eval.changeScopes fun t => t.clearExecuted id n)
    (Eval.changeScopes fun t => t.clearExecuted id n) :=
  Keeps.changeScopes (fun _ _ h => h) fun t u h => by
    have h : u = e t := h
    rw [h, he.clearExecuted]
    cases t.clearExecuted id n with
    | error failure => exact .error
    | ok t' => exact .ok rfl

/-- Forgetting the markers of a subtree that holds every `return` that was executed. -/
theorem clearExecuted {n : Node} (hx : ∃ s, shape.find? x = some s)
    (hl : l ⊆ n.descendants) :
    Alike (Beside (Spent e program shape x l))
      (Eval.changeScopes fun t => t.clearExecuted x n)
      (Eval.changeScopes fun t => t.clearExecuted x n)
      (fun _ => Beside (Mirrors e program shape)) (Beside (Image e)) := by
  unfold Eval.changeScopes Eval.updateScopes
  refine Alike.update ?_
  rintro s _ ⟨u, ⟨flow, h⟩, hparked⟩
  obtain ⟨_, hshape⟩ := hx
  obtain ⟨xs, hxs, -⟩ := h.orderly.links.find? hshape
  obtain ⟨t', xs', ht', hr, hxs', hexecuted⟩ := ScopeTree.clearExecuted_of_find? hxs n
  have hu' : u.clearExecuted x n = .ok (e t') := by
    rw [h.image, he.clearExecuted, ht']
    rfl
  refine .inr ⟨(), t', e t', congrArg _ ht', congrArg _ hu', e t',
    ⟨rfl, h.orderly.remarked hr, fun y ys m hys hm hj hc => ?_⟩, hparked⟩
  by_cases hy : y = x
  · subst hy
    rw [hxs'] at hys
    cases hys
    obtain ⟨hbefore, hnot⟩ := (hexecuted m.id).1 hc
    obtain ⟨-, hml, -⟩ := h.after.returned y xs m hxs hm hj hbefore
    exact hnot (List.mem_map_of_mem (hl hml))
  · rw [hr.other y hy] at hys
    exact hy (h.after.returned y ys m hys hm hj hc).1

/-- Releasing a scope, where nothing is known of the scopes. -/
theorem release_image {id : ScopeId} : Keeps (Image e) (Image e)
    (Eval.updateScopes fun t => t.release id) (Eval.updateScopes fun t => t.release id) := by
  refine Alike.update ?_
  rintro s _ ⟨u, h, hparked⟩
  have h : u = e s.scopes := h
  have hu := he.release s.scopes id
  rw [← h] at hu
  cases hr : s.scopes.release id with
  | error failure =>
    rw [hr] at hu
    exact .inl ⟨failure, rfl, hu, u, h, hparked⟩
  | ok r =>
    rw [hr] at hu
    exact .inr ⟨r.1, r.2, e r.2, rfl, hu, e r.2, rfl, hparked⟩

omit he in
theorem inNewScope_run {y : ScopeId → Eval α} {s : State} {inner : ScopeId}
    (h : s.scopes.create p = .ok (inner, t)) : Eval.inNewScope p y s =
      (y inner).thenAlways (Eval.updateScopes fun t => t.release inner)
        { s with scopes := t } := by
  unfold Eval.inNewScope
  rw [Step.run_bind, Eval.updateScopes_run h]
  rfl

/-- **New scopes.** A computation in a scope of its own leaves the markers that it set to the
parent. -/
theorem inNewScope (hp : ∃ s, shape.find? p = some s) {flow : α → Flow} {x x' : ScopeId → Eval α}
    (hx : ∀ shape' inner, (∃ s, shape'.find? inner = some s) →
      Alike (Beside (Mirrors e program shape')) (x inner) (x' inner)
        (fun a => Beside (Ends e program shape' inner l (flow a))) (Beside (Image e))) :
    Alike (Beside (Mirrors e program shape)) (Eval.inNewScope p x) (Eval.inNewScope p x')
      (fun a => Beside (Ends e program shape p l (flow a))) (Beside (Image e)) := by
  rintro s _ ⟨u, h, hparked⟩
  obtain ⟨_, hshape⟩ := hp
  obtain ⟨ps, hps, -⟩ := h.orderly.links.find? hshape
  obtain ⟨t, ht, hc⟩ := h.orderly.wf.create hps
  have hu : u.create p = .ok (s.scopes.nextId, e t) := by
    rw [h.image, he.create, ht]
    rfl
  have hinner : Mirrors e program t t (e t) :=
    ⟨rfl, hc.orderly h.orderly hps, hc.quiet h.orderly.wf h.quiet hps⟩
  have hrelease : ∀ a, Alike (Beside (Ends e program t s.scopes.nextId l (flow a)))
      (Eval.updateScopes fun t => t.release s.scopes.nextId)
      (Eval.updateScopes fun t => t.release s.scopes.nextId)
      (fun _ => Beside (Ends e program shape p l (flow a))) (Beside (Image e)) := by
    intro a
    refine Alike.update ?_
    rintro r _ ⟨v, hv, hr⟩
    obtain ⟨w, hw, horderly, hmerged⟩ := h.orderly.release hps hc hv.orderly
    have hw' : v.release s.scopes.nextId = .ok (.removed, e w) := by
      rw [hv.image, he.release, hw]
      rfl
    exact .inr ⟨.removed, w, e w, hw, hw', e w, ⟨rfl, horderly, hv.after.merged hmerged⟩, hr⟩
  -- Both sides make the same scope, and go on in it.
  rw [inNewScope_run ht, inNewScope_run (s := { s with scopes := u }) hu]
  exact (hx t _ ⟨_, hc.new⟩).thenAlways hrelease (release_image he) _ _ ⟨e t, hinner, hparked⟩

end Mirrors

end TreeScript
