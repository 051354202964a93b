import TreeScript.Proofs.Store

/-!
# Visits are balanced

A visit that returns or fails leaves the thread that it was called on as it found it: the same
calls, the same call id, the same functions being prepared. At every step on the way, also of the tasks
on threads of their own and inside native routines, the implementation that the thread runs is that of
its innermost call: a thread that is entered, left or reset is again a `Thread`, and cannot be built
otherwise (`Thread.consistent`).

The scopes are balanced as well, as long as no task is involved: if neither the node nor a function
that is bound declares an asynchronous function, and no job is parked, then each scope is in its
place again (`Scope.Place`), and there are no other ones. A function that was bound before can spoil
this, if it is asynchronous.
-/

namespace TreeScript

/-! ## Scopes -/

/-- No asynchronous function is declared in the node. -/
def Node.Synchronous (n : Node) : Prop := ∀ m ∈ n.descendants, m.isAsync = false

/-- The function is not asynchronous, and none is declared in it. -/
structure ScriptFunction.Synchronous (f : ScriptFunction) : Prop where
  sync : f.isAsync = false
  body : f.body.Synchronous
  default : ∀ p ∈ f.parameters, ∀ n, p.default = some n → n.Synchronous

/-- No asynchronous function is bound in a scope, and none is declared in one that is bound. -/
structure ScopeTree.Synchronous (t : ScopeTree) : Prop where
  functions : ∀ {id c name f}, t.find? id = some c → c.functions.find? name = some (.script f) →
    f.Synchronous
  members : ∀ {id c name i member f}, t.find? id = some c → c.implementations.find? name = some i →
    i.functions.find? member = some f → f.Synchronous

theorem Node.Synchronous.of_mem {n m : Node} (h : n.Synchronous) (hm : m ∈ n.descendants) :
    m.Synchronous := fun _ hk => h _ (descendants_trans hm hk)

theorem Node.Synchronous.of_declares {n : Node} {f : ScriptFunction} (h : n.Synchronous)
    (hf : n.Declares f) : f.Synchronous := by
  obtain ⟨hmem, -, name, parameters, returns, hk⟩ := hf.kind
  refine ⟨?_, h.of_mem (descendants_trans hmem (child_mem_descendants hf.body_mem)),
    fun p hp m hm => ?_⟩
  · have hsync := h _ hmem
    unfold Node.isAsync at hsync
    rw [hk] at hsync
    exact hsync
  · obtain ⟨k, hkmem, hoperand⟩ := hf.default_mem hp hm
    exact h.of_mem (descendants_trans hkmem
      (child_mem_descendants (k.kind.operands_subset_children hoperand)))

/-- If `sync`, then functions are synchronous. -/
def Facets.balanced (sync : Prop) : Facets where
  low := 0
  locals _ _ := True
  functions f f' := f' = f ∧ (sync → f.Synchronous)
  executed _ e e' := e' = e
  pending _ a b := b = a

/-- A run with itself that keeps the places of all scopes. Either no task can be spawned (`sync`), or
the run goes astray with more than `size` tasks. -/
def Pairing.balanced (sync : Prop) (size : Nat) : Pairing where
  View := ScopeId → Option Scope.Place
  Line := Thread
  scopes v t t' := t.Paired (.balanced sync) t' ∧ t.Placed v
  threads u _ r r' := (r = u ∧ r' = u) ∧ True
  world w w' := w' = w ∧ True
  heap := @World.heap_eq_of_eq_and True
  tasks a a' := a' = a ∧ size ≤ a.size
  jobs _ _ := False
  signable _ := True
  functions f f' := f' = f ∧ (sync → f.Synchronous)
  errors := Eq
  texts := Eq
  allowed v scope n := (sync → n.Synchronous) ∧ ∃ p, v scope = some p
  ready _ := True
  astray s := ¬sync ∧ size < s.tasks.size
  astray_mono h ha := ⟨ha.1, Nat.lt_of_lt_of_le ha.2 h.tasks⟩

namespace Pairing

variable {sync : Prop} {size : Nat}

theorem scopeForm_balanced :
    (balanced sync size).ScopeForm (.balanced sync) fun v t => t.Placed v where
  lawful := .of_eq (fun _ _ => trivial) Iff.rfl (fun _ _ => rfl) fun h => by rw [h.1]
  functions := rfl
  scopes := Iff.rfl
  same h hsame := h.same hsame
  jumps _ h _ _ _ := by rw [h]

theorem threadForm_balanced : (balanced sync size).ThreadForm id fun _ _ => True :=
  .of_all Iff.rfl (fun t => ⟨t, rfl⟩) (fun _ => trivial) (fun _ => trivial) And.left

theorem worldForm_balanced : (balanced sync size).WorldForm fun _ => True := .of_eq Iff.rfl

theorem laws_balanced (engine : Engine) : (balanced sync size).Laws engine where
  toScopeLaws := scopeForm_balanced.placed (fun _ _ _ _ _ => ⟨_, rfl⟩) (fun _ h => h)
    fun v scope w inner hinner => ⟨fun n hn => ⟨hn.1, hinner⟩, fun f f' hf =>
      ⟨fun hsync => (hf.2 hsync).body, hinner⟩⟩
  toThreadLaws := threadForm_balanced.laws
  toWorldLaws := worldForm_balanced.laws engine fun h => h.1.2.trans h.1.1.symm
  toFunctionLaws := {
    resembles := fun h => h.1 ▸ .refl _
    sync := fun h => by rw [h.1.1]; exact id
    made := fun hn hf =>
      ⟨rfl, fun hsync => (hn.1 hsync).of_declares ⟨_, Node.self_mem_descendants _, _, _, _, hf⟩⟩
    child := fun hn hm => ⟨fun hsync => (hn.1 hsync).of_mem (Node.child_mem_descendants hm), hn.2⟩
    default := fun hn hf hp hm => ⟨fun hsync => (hf.2 hsync).default _ hp _ hm, hn.2⟩ }
  toErrorLaws := .of_eq rfl rfl And.left

theorem visits_balanced (engine : Engine) (limit : Nat) :
    (balanced sync size).Visits (Eval.visit engine limit) (Eval.visit engine limit) := by
  have hl : (balanced sync size).Laws engine := laws_balanced engine
  refine hl.visits (fun visit visit' hv => .of_idle hl hv (fun _ _ => id) ?_ ?_) _
  · intro v u n scope f f' s s' bound returns hn hf hasync hat
    by_cases hsync : sync
    · rw [(hf.2 hsync).sync] at hasync
      cases hasync
    · obtain ⟨p, hp⟩ := hn.2
      obtain ⟨c, hc, -⟩ := hat.scopes.2.find? hp
      exact hl.astray_launch hv v u hasync hc
        (fun t ht => ⟨hsync, Nat.lt_of_le_of_lt hat.tasks.2 ht⟩) bound returns
  · rintro _ a ⟨rfl, -⟩ i
    exact rel_self fun r _ => .refl (fun _ => rfl) (fun _ => rfl) r

end Pairing

/-! ## Visits -/

/-- Where the first computation returned or failed without having gone astray, both ended in paired
states. -/
theorem Pairing.Follows.at_returned {P : Pairing} {α : Type} {V : α → α → Prop}
    {F : Error → Error → Prop} {p : Prop} {v : P.View} {u : P.Line} {x : Eval α} {s t : State}
    (hx : P.Follows p V F v u x x) (hp : p) (hs : P.At v u s s) (ht : (x s).returned? = some t)
    (hastray : ¬P.astray t) : P.At v u t t := by
  have hends := hx.ends s s ⟨hp, hs⟩
  cases ho : x s with
  | ok a r =>
    rw [ho] at hends ht
    cases ht
    cases hends with
    | ok h => exact h.2
    | astray h => exact absurd h hastray
  | error e r =>
    rw [ho] at hends ht
    cases ht
    cases hends with
    | error h => exact h.2
    | astray h => exact absurd h hastray
  | crashed | blocked | exhausted =>
    rw [ho] at ht
    cases ht

/-- The thread is as before. -/
theorem State.Sound.thread_eq {engine : Engine} {s t : State} {scope : ScopeId} {n : Node} (h : s.Sound)
    (ht : (engine.visit scope n s).returned? = some t) : t.thread = s.thread := by
  obtain ⟨v, u, hat⟩ := h.apart
  have hafter := (Pairing.visits_lasting h.tidy.wellFormed engine Eval.patience v u scope n).at_returned
    ⟨trivial, trivial⟩ hat ht id
  exact hafter.threads.1.1.trans hat.threads.1.1.symm

/-- The scopes are in their places again, unless a task was spawned. -/
theorem Eval.placement_of_visit {engine : Engine} {limit : Nat} {s t : State} {scope : ScopeId} {n : Node}
    (wf : s.scopes.WellFormed) (hscripts : s.scopes.All Scope.Scripted) (hidle : s.parked = [])
    (hscope : (s.scopes.find? scope).isSome)
    (hsync : (n.Synchronous ∧ s.scopes.Synchronous) ∨ t.tasks.size = s.tasks.size)
    (ht : (visit engine limit scope n s).returned? = some t) :
    t.scopes.placement = s.scopes.placement := by
  obtain ⟨c, hc⟩ := Option.isSome_iff_exists.1 hscope
  have hpaired : s.scopes.Paired (.balanced (n.Synchronous ∧ s.scopes.Synchronous)) s.scopes :=
    wf.paired_self hscripts (Nat.zero_le _) (fun _ _ _ => trivial)
      (fun hc hf => ⟨rfl, fun h => h.2.functions hc hf⟩)
      (fun hc hi hf => ⟨rfl, fun h => h.2.members hc hi hf⟩) (fun _ _ => rfl) fun _ _ => rfl
  have hat : (Pairing.balanced (n.Synchronous ∧ s.scopes.Synchronous) s.tasks.size).At
      s.scopes.placement s.thread s s := by
    refine ⟨⟨hpaired, wf.placed⟩, ⟨⟨rfl, rfl⟩, trivial⟩, ⟨rfl, trivial⟩, ⟨rfl, Nat.le_refl _⟩, ?_,
      fun _ _ => trivial⟩
    rw [hidle]
    exact .nil
  have hnode : (n.Synchronous ∧ s.scopes.Synchronous → n.Synchronous) ∧
      ∃ p, s.scopes.placement scope = some p := by
    refine ⟨And.left, c.place, ?_⟩
    rw [ScopeTree.placement, hc]
    rfl
  have hafter := (Pairing.visits_balanced engine limit s.scopes.placement s.thread scope n).at_returned
    ⟨hnode, trivial⟩ hat ht fun hastray => hsync.elim hastray.1 fun hsize => Nat.lt_irrefl _ (hsize ▸ hastray.2)
  exact funext hafter.scopes.2.places

/-- **Balance.** In every state there is, so at every step of a visit, the thread runs the
implementation of its innermost call. If a visit from a state that a host can reach returns or fails, the
thread is as before; and so are the places of the scopes, if no job was parked and no task could be
spawned or was spawned. -/
theorem Engine.visit_balanced {engine : Engine} {s : State} (hs : engine.Reachable s)
    (scope : ScopeId) (n : Node) :
    (∀ u : State, u.thread.implementation = u.thread.top?.bind (·.function.implementation)) ∧
    ∀ t, (engine.visit scope n s).returned? = some t →
      t.thread = s.thread ∧
      (s.parked = [] → (s.scopes.find? scope).isSome →
        (n.Synchronous ∧ s.scopes.Synchronous) ∨ t.tasks.size = s.tasks.size →
        t.scopes.placement = s.scopes.placement) := by
  have hsound := Engine.Reachable.sound hs
  exact ⟨fun u => u.thread.consistent, fun t ht => ⟨hsound.thread_eq ht,
    fun hidle hscope hsync => Eval.placement_of_visit hsound.tidy.wellFormed hsound.scripts hidle hscope
      hsync ht⟩⟩

theorem ScopeTree.synchronous_initial : ScopeTree.initial.Synchronous := by
  refine ⟨fun hc hf => ?_, fun hc hi _ => ?_⟩
  · cases eq_fresh_of_find?_initial hc
    cases hf
  · cases eq_fresh_of_find?_initial hc
    cases hi

theorem Engine.visit_balanced_returningFromLoop :
    let visited := Engine.bare.visit ScopeTree.root Node.returningFromLoop .initial
    Engine.bare.Reachable .initial ∧ Node.returningFromLoop.Synchronous ∧
      ScopeTree.initial.Synchronous ∧ visited.returned?.isSome ∧
      ∀ t, visited.returned? = some t → t.thread = .fresh ∧
        t.scopes.placement = ScopeTree.initial.placement := by
  have hsync : Node.returningFromLoop.Synchronous := by
    unfold Node.Synchronous
    decide
  have hreach : Engine.bare.Reachable .initial := .refl
  refine ⟨hreach, hsync, ScopeTree.synchronous_initial, by decide +kernel, fun t ht => ?_⟩
  obtain ⟨hthread, hplaces⟩ := (visit_balanced hreach ScopeTree.root Node.returningFromLoop).2 t ht
  exact ⟨hthread, hplaces rfl (by decide) (.inl ⟨hsync, ScopeTree.synchronous_initial⟩)⟩

/-- An engine with a function that waits for a gate. -/
def Engine.gated : Engine :=
  { Engine.bare with
    host := Registry.empty.add (.builtin "lab" "hold" ⟨[], .any, false⟩
      (.behind "g" (.constant (.known (.int 1))))) }

/-- Declares an asynchronous function that waits. -/
def Node.declaringLinger : Node :=
  let node (id : Nat) (kind : NodeKind) : Node := ⟨id, .origin, kind⟩
  node 0 (.program [
    node 1 (.function "linger" true none none (node 2 (.block [node 3 (.call "hold" [] none)])))])

/-- Calls it. -/
def Node.callingLinger : Node := ⟨4, .origin, .call "linger" [] none⟩

/-- A function that was bound before can leave a task behind, whatever the node that is visited. -/
theorem Engine.visit_unbalanced_linger :
    let s := Engine.gated.after Node.declaringLinger .initial
    Engine.gated.Reachable s ∧ s.parked = [] ∧ Node.callingLinger.Synchronous ∧
      (s.scopes.find? ScopeTree.root).map (·.pending) = some 0 ∧
      ((Engine.gated.visit ScopeTree.root Node.callingLinger s).returned?.bind
        (·.scopes.find? ScopeTree.root)).map (·.pending) = some 1 := by
  refine ⟨Engine.reaches_after (by decide +kernel), ?_, ?_, by decide +kernel, by decide +kernel⟩
  · exact List.isEmpty_iff.1 (by decide +kernel)
  · unfold Node.Synchronous
    decide

end TreeScript
