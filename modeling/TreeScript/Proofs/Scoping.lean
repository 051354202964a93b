import TreeScript.Proofs.Balance
import TreeScript.Proofs.Regime.Visit
import TreeScript.Proofs.Scope.Leveled

/-!
# Blocks do not leak

Whatever a program does, each binding is declared for the depth of the scope that holds it, so a scope
that is torn down leaves no binding to its parent. This is said through an evaluator that looks at the
bindings before and after each visit (`Eval.supervise`): whatever it does where one is out of place, it
does as the plain one does. It is so whatever other threads do before and after each visit, as long as
they keep to this too (`Eval.amid`).

A block declares in scopes of its own. So the names that are bound around it stay, except where another
thread declares or tears down there while the block is visited. All of them stay where the block is
visited alone.

* `Regime.sheltering`: the invariant. The scopes are `Leveled`, and those that are not newer than a given
  tree bind the same names as there.
* `Regime.Laws.visits_amid`: each visit keeps an invariant that other threads keep. A block is seen as a
  run of its own, which starts with the scopes that it finds and declares in new ones only.
* `Engine.run_keeps_bindings_scoped`: whole runs.
-/

namespace TreeScript

/-! ## Evaluators beside others -/

/-- Whether a node is a block. -/
def Node.isBlock (n : Node) : Bool :=
  match n.kind with
  | .block _ => true
  | _ => false

/-- No task runs between the two states: those of the first have ended, and the second has no other
ones. -/
def State.Alone (s t : State) : Prop :=
  s.parked.isEmpty = true ∧ s.tasks.all (fun task => task.outcome.isSome) = true ∧
    t.tasks.size = s.tasks.size

/-- The scopes as threads leave them: all bindings are at the depth of their scope, functions are scripts,
and the root was not released. -/
structure ScopeTree.Regular (t : ScopeTree) : Prop extends Rooted t where
  leveled : t.Leveled
  scripts : t.All Scope.Scripted

namespace Eval

/-- Carries out a visit. Other threads act before and after it. -/
def disturbed (others : State → State) (x : Eval Flow) : Eval Flow := do
  Step.modify others
  x.thenAlways (Step.modify others)

/-- Visits nodes as `Eval.visit` does, but other threads act before and after each visit of a node in a
scope. -/
def amid (engine : Engine) (others : ScopeId → Node → State → State) : Nat → Visit
  | 0 => fun _ _ => Step.exhaust
  | limit + 1 => fun scope n => disturbed (others scope n)
      ((step engine limit (amid engine others limit) scope n).mapError fun e => e.located n.span)

theorem disturbed_id (x : Eval Flow) : disturbed id x = x := by
  funext s
  show (x.thenAlways (Step.modify id)) s = x s
  rw [Step.thenAlways_run]
  cases x s <;> rfl

/-- Where no other thread acts, nodes are visited as they are. -/
theorem amid_id (engine : Engine) (limit : Nat) :
    amid engine (fun _ _ => id) limit = visit engine limit := by
  induction limit with
  | zero => rfl
  | succ limit ih =>
    funext scope n
    unfold amid
    rw [disturbed_id, ih]
    rfl

/-- What other threads do leaves the scopes regular. -/
def KeepsRegular (others : State → State) : Prop := ∀ s, s.scopes.Regular → (others s).scopes.Regular

/-- After a visit in a scope all bindings are at the depth of their scope. -/
def Leveling (_ : ScopeId) (_ : Node) (_ t : State) : Prop := t.scopes.Leveled

/-- After a visit in a scope all bindings are at the depth of their scope, and a block that was visited
while no task runs has left the names as they were that are bound around it. -/
def Sheltered (scope : ScopeId) (n : Node) (s t : State) : Prop :=
  t.scopes.Leveled ∧ (n.isBlock → s.scopes.contains scope → s.Alone t →
    t.scopes.namesAbove scope = s.scopes.namesAbove scope)

instance (scope : ScopeId) (n : Node) (s t : State) : Decidable (Leveling scope n s t) :=
  inferInstanceAs (Decidable t.scopes.Leveled)

instance (s t : State) : Decidable (s.Alone t) := inferInstanceAs (Decidable (_ ∧ _ ∧ _))

instance (scope : ScopeId) (n : Node) (s t : State) : Decidable (Sheltered scope n s t) :=
  inferInstanceAs (Decidable (_ ∧ (_ → _ → _ → _)))

/-- Carries out the visit of a node, but does something else where a binding is out of place before it,
or the states before and after it are not as they should. -/
def supervised (check : State → State → Prop) [∀ s t, Decidable (check s t)] (otherwise : Eval Flow)
    (x : Eval Flow) : Eval Flow :=
  fun s => if s.scopes.Leveled ∧ ∀ t ∈ (x s).returned?, check s t then x s else otherwise s

/-- Visits nodes as `Eval.amid` does, and supervises each visit. -/
def supervise (engine : Engine) (others : ScopeId → Node → State → State)
    (check : ScopeId → Node → State → State → Prop) [∀ scope n s t, Decidable (check scope n s t)]
    (otherwise : Eval Flow) : Nat → Visit
  | 0 => fun _ _ => Step.exhaust
  | limit + 1 => fun scope n => supervised (check scope n) otherwise (disturbed (others scope n)
      ((step engine limit (supervise engine others check otherwise limit) scope n).mapError
        fun e => e.located n.span))

end Eval

/-! ## Scopes beside others -/

theorem ScopeTree.Retains.scripted {t u : ScopeTree} (hr : t.Retains u) (h : t.All Scope.Scripted) :
    u.All Scope.Scripted := fun x c' hc' => by
  obtain ⟨c, hc, hcr⟩ := hr.kept x c' hc'
  have hfunctions : c'.functions = c.functions := congrArg Scope.Bindings.functions hcr.bindings
  unfold Scope.Scripted
  rw [hfunctions]
  exact h x c hc

theorem ScopeTree.Edit.scripted {may : ScopeId → Prop} {declared : ScriptFunction → Prop} {t u : ScopeTree}
    (he : t.Edit may declared u) (h : t.All Scope.Scripted) : u.All Scope.Scripted := by
  cases he with
  | same => exact h
  | declaration | assignment | implementation | markers => exact All.modify h fun _ _ hs => hs
  | function =>
    refine All.modify h fun c _ hs name f hf => ?_
    rw [Table.find?_insert] at hf
    split at hf
    · cases hf
      exact ⟨_, rfl⟩
    · exact hs name f hf

namespace ScopeTree.Regular

variable {t u : ScopeTree}

theorem initial : ScopeTree.initial.Regular :=
  ⟨.initial, leveled_initial, State.Sound.initial.scripts⟩

theorem retains (h : t.Regular) (hu : u.Rooted) (hr : t.Retains u) : u.Regular :=
  ⟨hu, h.leveled.of_retains hr, hr.scripted h.scripts⟩

theorem edit {may : ScopeId → Prop} {declared : ScriptFunction → Prop} (h : t.Regular)
    (he : t.Edit may declared u) : u.Regular := by
  obtain ⟨hrooted, -⟩ := h.toRooted.same he.samePlaces
  exact ⟨hrooted, hrooted.wellFormed.leveled (he.leveled h.leveled.scopes), he.scripted h.scripts⟩

theorem create {scope inner : ScopeId} (h : t.Regular) (hc : t.create scope = .ok (inner, u)) :
    u.Regular := by
  have hrooted := h.toRooted.create hc
  refine ⟨hrooted, hrooted.wellFormed.leveled (h.leveled.scopes.create_leveled hc),
    h.scripts.create (fun _ _ name f hf => ?_) (fun _ _ hs => hs) hc⟩
  cases hf

end ScopeTree.Regular

/-- The scopes are regular, and those of `base` that are left keep their names. -/
structure ScopeTree.Shelters (base t : ScopeTree) : Prop where
  regular : t.Regular
  names : base.KeepsNames t

theorem ScopeTree.Shelters.retains {base t u : ScopeTree} (h : base.Shelters t) (hu : u.Rooted)
    (hr : t.Retains u) : base.Shelters u := ⟨h.regular.retains hu hr, h.names.of_retains hr⟩

/-- Nothing is known of the threads. Scripts declare in new scopes. -/
def Regime.sheltering (base : ScopeTree) : Regime where
  Stage := Unit
  At _ s := base.Shelters s.scopes
  reserve _ _ := ()
  running _ _ := ()
  inside _ scope := base.nextId ≤ scope

namespace Regime

variable {base : ScopeTree}

theorem scopeLaws_sheltering : (sheltering base).ScopeLaws where
  above _ := trivial
  edit h he := ⟨h.regular.edit he, h.names.edit he fun _ => id⟩
  found _ _ := callee_of_all (fun _ => trivial) trivial _
  create {_ s scope inner u} h _ hc := by
    have wf := h.regular.wellFormed
    obtain ⟨rfl, ps, hps, hcreated⟩ := wf.created_of_create hc
    refine ⟨(), ⟨h.names.next, fun h hr => ?_, id, id⟩, h.regular.create hc,
      h.names.created wf hps hcreated⟩
    exact h.retains (h.regular.toRooted.release hr).1 (h.regular.leveled.release hr)

theorem laws_sheltering (engine : Engine) : (sheltering base).Laws engine where
  rests := id
  world := id
  next := id
  thread h _ := h
  engage h _ _ _ := ⟨(), ⟨id, id, fun h _ => h, id⟩, h⟩
  toScopeLaws := scopeLaws_sheltering
  launched _ _ _ _ _ _ _ := trivial
  given _ := given_of_breaks trivial (fun _ _ => trivial) _
  works _ _ := ⟨trivial, trivial⟩
  spawned h _ hu _ _ := h.retains (h.regular.toRooted.beginTask hu).1 (.beginTask hu)
  start := id
  finish _ h _ _ := h.retains (h.regular.toRooted.endTask _).1 (h.regular.leveled.endTask _)
  park h _ := h
  take h := ⟨h, fun _ _ => trivial⟩
  outcome _ _ _ := trivial
  toNodeLaws := .of_all (fun _ => trivial) (fun _ => trivial) fun _ => trivial
  toErrorLaws := .of_all (fun _ => trivial) (fun _ => trivial) trivial

/-! ## Visits and runs -/

/-- A computation that keeps a regime returns or fails where it holds. -/
theorem Keeps.at_returned {R : Regime} {α : Type} {g : R.Stage} {x x' : Eval α} (h : R.Keeps g x x')
    {s t : State} (hs : R.At g s) (ht : t ∈ (x s).returned?) : R.At g t := by
  have hends := (h.ends s hs).2
  generalize x s = o at hends ht
  cases o with
  | ok a t' =>
    cases ht
    exact hends
  | error e t' =>
    cases ht
    exact hends.2
  | crashed | blocked | exhausted => cases ht

section Amid

variable {R : Regime} {engine : Engine} {others : ScopeId → Node → State → State} {g : R.Stage}

/-- A visit keeps a regime that other threads keep. -/
theorem Keeps.disturbed {f : State → State} (hf : ∀ s, R.At g s → R.At g (f s)) {x x' : Eval Flow}
    (h : R.Keeps g x x') : R.Keeps g (Eval.disturbed f x) (Eval.disturbed f x') :=
  .bind (.modify hf) fun _ => h.tidied (.modify hf)

/-- Where the checks succeed, a visit is supervised in vain. -/
theorem Keeps.supervised {check : State → State → Prop} [∀ s t, Decidable (check s t)]
    {x x' : Eval Flow} (h : R.Keeps g x x') (hlevels : ∀ s, R.At g s → s.scopes.Leveled)
    (hcheck : ∀ s t, R.At g s → t ∈ (x s).returned? → check s t) (otherwise : Eval Flow) :
    R.Keeps g x (Eval.supervised check otherwise x') := by
  refine ⟨fun s hs => ⟨?_, (h.ends s hs).2⟩⟩
  unfold Eval.supervised
  rw [(h.ends s hs).1, if_pos]
  exact ⟨hlevels s hs, fun t => hcheck s t hs⟩

/-- A block can be visited where scopes can be made. -/
theorem Laws.located_block (hl : R.Laws engine) (limit : Nat) {visit : Visit}
    (hv : R.Visits visit visit) (scope : ScopeId) (hscope : R.above g scope) {n : Node} (hn : R.node n)
    (hblock : n.isBlock) :
    R.Keeps g ((Eval.step engine limit visit scope n).mapError fun e => e.located n.span)
      ((Eval.step engine limit visit scope n).mapError fun e => e.located n.span) := by
  refine hl.locate (hl.node hn) ?_
  unfold Node.isBlock at hblock
  split at hblock
  · next statements hk =>
    unfold Eval.step
    rw [hk]
    refine hl.block hv hscope fun m hm => hl.child hn ?_
    unfold Node.children
    rw [hk]
    exact hm
  · cases hblock

variable (hl : R.Laws engine) (hothers : ∀ scope n g s, R.At g s → R.At g (others scope n s))

include hl hothers

/-- **All visits** beside threads that keep a regime keep it, and pass the checks that follow from it. -/
theorem Laws.visits_amid {check : ScopeId → Node → State → State → Prop}
    [∀ scope n s t, Decidable (check scope n s t)]
    (hlevels : ∀ g s, R.At g s → s.scopes.Leveled)
    (hcheck : ∀ limit g scope n, R.inside g scope → R.node n → ∀ s t, R.At g s →
      t ∈ (Eval.amid engine others (limit + 1) scope n s).returned? → R.At g t → check scope n s t)
    (otherwise : Eval Flow) (limit : Nat) :
    R.Visits (Eval.amid engine others limit)
      (Eval.supervise engine others check otherwise limit) := by
  induction limit with
  | zero => exact fun _ _ _ _ _ => .exhaust
  | succ limit ih =>
    intro g scope n hscope hn
    have hkeeps := Keeps.disturbed (hothers scope n g)
      (hl.locate (hl.node hn) (hl.step ih limit hscope hn))
    exact hkeeps.supervised (hlevels g)
      (fun s t hs ht => hcheck limit g scope n hscope hn s t hs ht (hkeeps.at_returned hs ht)) otherwise

theorem Laws.visits_beside (limit : Nat) :
    R.Visits (Eval.amid engine others limit) (Eval.amid engine others limit) := by
  induction limit with
  | zero => exact fun _ _ _ _ _ => .exhaust
  | succ limit ih =>
    exact fun g scope n hscope hn => Keeps.disturbed (hothers scope n g)
      (hl.locate (hl.node hn) (hl.step ih limit hscope hn))

end Amid

/-- **Blocks beside others.** The scopes around a block keep the names that the others keep: for the block
they are old. -/
theorem keepsNames_of_block {engine : Engine} {others : ScopeId → Node → State → State}
    (hregular : ∀ scope n, Eval.KeepsRegular (others scope n)) {limit : Nat} {scope : ScopeId} {n : Node}
    (hblock : n.isBlock) {s t : State} (hs : s.scopes.Regular)
    (hnames : ∀ scope n u, s.scopes.KeepsNames u.scopes → s.scopes.KeepsNames (others scope n u).scopes)
    (ht : t ∈ (Eval.amid engine others limit scope n s).returned?) :
    s.scopes.KeepsNames t.scopes := by
  have hothers (scope : ScopeId) (n : Node) (g : Unit) (u : State) (hu : s.scopes.Shelters u.scopes) :
      s.scopes.Shelters (others scope n u).scopes :=
    ⟨hregular scope n u hu.regular, hnames scope n u hu.names⟩
  have hl : (sheltering s.scopes).Laws engine := laws_sheltering engine
  cases limit with
  | zero => cases ht
  | succ limit =>
    have hkeeps := Keeps.disturbed (g := ()) (hothers scope n ())
      (hl.located_block limit (hl.visits_beside hothers limit) scope trivial trivial hblock)
    exact (hkeeps.at_returned ⟨hs, .refl _⟩ ht).names

/-- **Blocks alone.** All scopes around the block are there again, with their names. -/
theorem namesAbove_of_block {engine : Engine} {limit : Nat} {scope : ScopeId} {n : Node}
    (hblock : n.isBlock) {s t : State} (hs : s.scopes.Regular) (hend : t.scopes.Regular)
    (hscope : s.scopes.contains scope) (halone : s.Alone t)
    (ht : t ∈ (Eval.visit engine limit scope n s).returned?) :
    t.scopes.namesAbove scope = s.scopes.namesAbove scope := by
  obtain ⟨c, hc⟩ := ScopeTree.contains_iff.1 hscope
  have hplaces := Eval.placement_of_visit hs.wellFormed hs.scripts (List.isEmpty_iff.1 halone.1)
    (Option.isSome_iff_exists.2 ⟨c, hc⟩) (.inr halone.2.2) ht
  obtain ⟨c', hc', -⟩ := (hplaces ▸ hend.wellFormed.placed : t.scopes.Placed s.scopes.placement).find?
    (congrArg (Option.map Scope.place) hc)
  rw [← Eval.amid_id] at ht
  have hnames := keepsNames_of_block (fun _ _ _ => id) hblock hs (fun _ _ _ => id) ht
  exact hnames.namesAbove hs.wellFormed hend.wellFormed (hs.wellFormed.bound _ c hc)
    (ScopeTree.contains_iff.2 ⟨c', hc'⟩)

theorem shelters_of_regular {t : ScopeTree} (h : t.Regular) : (⟨∅, 0⟩ : ScopeTree).Shelters t :=
  ⟨h, Nat.zero_le _, fun x _ hx => absurd hx (Nat.not_lt_zero x)⟩

/-- What another thread does when it visits a node leaves the scopes regular. -/
theorem keepsRegular_visit (engine : Engine) (limit : Nat) (scope : ScopeId) (n : Node) :
    Eval.KeepsRegular fun s => (Eval.visit engine limit scope n s).returned?.getD s := by
  intro s hs
  have hl : (sheltering ⟨∅, 0⟩).Laws engine := laws_sheltering engine
  have hkeeps := hl.visits limit () scope n (Nat.zero_le _) trivial
  dsimp only
  cases ht : (Eval.visit engine limit scope n s).returned? with
  | none => exact hs
  | some t => exact (hkeeps.at_returned (shelters_of_regular hs) ht).regular

/-- Runs beside others that leave the scopes regular pass the checks that follow from that. -/
theorem evaluate_amid (engine : Engine) (others : ScopeId → Node → State → State)
    (hregular : ∀ scope n, Eval.KeepsRegular (others scope n))
    (check : ScopeId → Node → State → State → Prop) [∀ scope n s t, Decidable (check scope n s t)]
    (hcheck : ∀ limit scope n s t, s.scopes.Regular →
      t ∈ (Eval.amid engine others (limit + 1) scope n s).returned? → t.scopes.Regular →
      check scope n s t) (program : Node) (otherwise : Eval Flow) :
    (sheltering ⟨∅, 0⟩).Keeps ()
      ((Eval.amid engine others Eval.patience).evaluate ScopeTree.root program)
      ((Eval.supervise engine others check otherwise Eval.patience).evaluate ScopeTree.root program) := by
  have hl : (sheltering ⟨∅, 0⟩).Laws engine := laws_sheltering engine
  exact (hl.visits_amid (fun scope n _ s hs => shelters_of_regular (hregular scope n s hs.regular))
    (fun _ _ hs => hs.regular.leveled) (fun limit _ scope n _ _ s t hs ht hend =>
      hcheck limit scope n s t hs.regular ht hend.regular) otherwise Eval.patience).evaluate
    (Nat.zero_le _) trivial

end Regime

/-- Binds a name again in a block, with a function and an implementation, and assigns it in a block
inside of that one. -/
def Node.shadowing : Node :=
  let node (id : Nat) (kind : NodeKind) : Node := ⟨id, .origin, kind⟩
  let one (id : Nat) : Option Node := some (node id (.literal (.int 1)))
  node 0 (.program [
    node 1 (.variableDeclaration "a" false none (one 2)),
    node 3 (.block [
      node 4 (.variableDeclaration "a" false none (one 5)),
      node 6 (.function "f" false none none (node 7 (.block []))),
      node 8 (.implementation "I" [node 9 (.function "g" false none none (node 10 (.block [])))]),
      node 11 (.block [
        node 12 (.variableDeclaration "b" false none (one 13)),
        node 14 (.assignment "a" (node 15 (.call "f" [] none)))])])])

/-- Another thread declares `y` in the root when the node with this id is visited. -/
def Eval.declaring (id : Nat) : ScopeId → Node → State → State := fun _ n s =>
  if n.id = id then
    (visit .bare 2 ScopeTree.root
      ⟨20, .origin, .variableDeclaration "y" false none (some ⟨21, .origin, .literal (.int 5)⟩)⟩
      s).returned?.getD s
  else s

theorem Eval.keepsRegular_declaring (id : Nat) (scope : ScopeId) (n : Node) :
    KeepsRegular (declaring id scope n) := by
  intro s hs
  unfold declaring
  split
  · exact Regime.keepsRegular_visit .bare 2 ScopeTree.root _ s hs
  · exact hs

end TreeScript
