import Mathlib.Data.List.Nodup
import TreeScript.Program
import TreeScript.Proofs.Eval.Mirror

/-!
# Markers and signals

The evaluator decides by markers whether the statements after a jump are skipped. A simpler one
would look at the flow in which the statement ended. This module shows that they agree, for programs
in which jumps stand where statements stand.

* `Control`: how jumps are noted and when the rest of the statements is skipped. With
  `Control.markers` it is the evaluator (`Control.visit_markers`); `Control.signals` notes nothing
  and goes by the flow; `Control.audited` asks the markers, and does something else if their answer
  is not that of the flow.
* `Control.Faithful`: what is asked of a control to agree with the markers, step by step.
* `Agree`: visits on both sides end in the same way. `Agree.step` is the step lemma, with one lemma
  for each construct before it, and `agree_visit` is the run lemma.
* `Engine.run_follows_signals`: runs by markers and by signals are the same, and no answer of the
  markers ever differs from that of the flow.
-/

namespace TreeScript

open Step (Alike)
open ScopeTree (Orderly Quiet After Transparent)

/-! ## Controls -/

/-- How jumps are noted, and when the statements after a statement are skipped. -/
structure Control where
  note : ScopeId → Node → Eval Unit
  stops : ScopeId → Node → Flow → Eval Bool

namespace Control

/-- Visits statements one after the other; `last` is the flow of the one before. -/
def runStatements (c : Control) (visit : Visit) (scope : ScopeId) : Flow → List Node → Eval Flow
  | last, [] => pure last
  | _, statement :: rest => do
    let flow ← visit scope statement
    if ← c.stops scope statement flow then return flow
    else c.runStatements visit scope flow rest

/-- Executes a jump. -/
def jump (c : Control) (scope : ScopeId) (n : Node) (flow : Flow) : Eval Flow := do
  c.note scope n
  return flow

/-- What visiting a node does. -/
def step (c : Control) (engine : Engine) (limit : Nat) (visit : Visit) (scope : ScopeId)
    (n : Node) : Eval Flow :=
  match n.kind with
  | .program statements => c.runStatements visit scope .none statements
  | .block statements =>
    Eval.inNewScope scope fun inner => c.runStatements visit inner .none statements
  | .returnJump value => do
    let value ← Eval.evaluateOption visit scope value
    c.jump scope n (.returned value)
  | .breakJump => c.jump scope n .broken
  | .continueJump => c.jump scope n .continued
  | _ => Eval.step engine limit visit scope n

/-- A control matters for lists of statements and for jumps. -/
theorem step_of_expression {n : Node} (h : n.kind.isControl = false) (c : Control)
    (engine : Engine) (limit : Nat) (visit : Visit) (scope : ScopeId) :
    c.step engine limit visit scope n = Eval.step engine limit visit scope n := by
  unfold step
  split
  case h_6 => rfl
  all_goals
    rename_i hk
    rw [hk] at h
    cases h

/-- Visits a node, and nodes inside of visits at most `limit` deep. -/
def visit (c : Control) (engine : Engine) : Nat → Visit
  | 0 => fun _ _ => Step.exhaust
  | limit + 1 => fun scope n =>
    (c.step engine limit (c.visit engine limit) scope n).mapError fun e => e.located n.span

/-- Runs a program. -/
def run (c : Control) (engine : Engine) (program : Node) : Eval Value :=
  (c.visit engine Eval.patience).evaluate ScopeTree.root program

/-- Jumps leave markers, and the markers decide. -/
def markers : Control where
  note scope n := Eval.changeScopes fun t => t.markExecuted scope n.id
  stops scope statement flow := Eval.askScopes fun t => t.skipsRest scope statement flow.isJump

/-- Jumps leave nothing, and the flow decides. No marker is ever set, so that the loops and calls
have none to forget. -/
def signals : Control where
  note _ _ := pure ()
  stops _ _ flow := pure flow.isJump

/-- Jumps leave markers, and the markers decide as long as they say what the flow says. -/
def audited (otherwise : Eval Bool) : Control where
  note := markers.note
  stops scope statement flow := do
    let answer ← markers.stops scope statement flow
    if answer = flow.isJump then return answer else otherwise

theorem runStatements_markers (visit : Visit) (scope : ScopeId) (last : Flow) (l : List Node) :
    markers.runStatements visit scope last l = Eval.runStatements visit scope last l := by
  induction l generalizing last with
  | nil => rfl
  | cons n l ih =>
    unfold runStatements Eval.runStatements
    simp only [ih]
    rfl

theorem step_markers (engine : Engine) (limit : Nat) (visit : Visit) (scope : ScopeId) (n : Node) :
    markers.step engine limit visit scope n = Eval.step engine limit visit scope n := by
  unfold step Eval.step
  cases n.kind <;> simp only [runStatements_markers] <;> rfl

/-- The control by markers is the evaluator. -/
theorem visit_markers (engine : Engine) (limit : Nat) :
    markers.visit engine limit = Eval.visit engine limit := by
  induction limit with
  | zero => rfl
  | succ limit ih =>
    funext scope n
    unfold visit Eval.visit
    rw [ih, step_markers]

end Control

/-! ## Programs -/

/-- Whether a node declares an asynchronous function. -/
def Node.isAsync (n : Node) : Bool :=
  match n.kind with
  | .function _ isAsync _ _ _ => isAsync
  | _ => false

/-- A program without asynchronous functions whose jumps stand where statements stand. -/
structure Node.Disciplined (program : Node) : Prop where
  /-- The nodes have different ids. -/
  distinct : (program.descendants.map (·.id)).Nodup
  sync : ∀ n ∈ program.descendants, n.isAsync = false
  /-- No jump lies below an expression, but for the bodies of functions that are declared there. -/
  operands : ∀ n ∈ program.descendants, ∀ o ∈ n.kind.operands, ∀ j ∈ o.exposed, j.jump? = none

variable {e : ScopeTree → ScopeTree} {program n : Node} {shape : ScopeTree} {x : ScopeId}
  {l : List Node} {flow : Flow} {c : Control} {visit visit' : Visit} {engine : Engine} {limit : Nat}

theorem Node.Disciplined.eq_of_id (hd : program.Disciplined) {m : Node}
    (hm : m ∈ program.descendants) (hn : n ∈ program.descendants) (h : m.id = n.id) : m = n :=
  List.inj_on_of_nodup_map hd.distinct hm hn h

/-- A function of the program, seen from its declaration. -/
theorem Node.Declares.kind {f : ScriptFunction} (h : program.Declares f) :
    f.declaration ∈ program.descendants ∧
      f.parameters = f.declaration.parameters?.getD [] ∧
      ∃ name parameters returns,
        f.declaration.kind = .function name f.isAsync parameters returns f.body := by
  obtain ⟨n, hn, id, implementation, depth, hf⟩ := h
  unfold ScriptFunction.ofNode at hf
  split at hf
  · rename_i name isAsync parameters returns body hk
    cases hf
    exact ⟨hn, rfl, name, parameters, returns, hk⟩
  · cases hf

namespace Node.Declares

variable {f : ScriptFunction} (hf : program.Declares f)

include hf

theorem body_mem : f.body ∈ f.declaration.children := by
  obtain ⟨-, -, name, parameters, returns, hk⟩ := hf.kind
  unfold Node.children
  rw [hk]
  simp [NodeKind.children]

theorem sync (hd : program.Disciplined) : f.isAsync = false := by
  obtain ⟨hmem, -, name, parameters, returns, hk⟩ := hf.kind
  have h := hd.sync _ hmem
  unfold Node.isAsync at h
  rw [hk] at h
  exact h

/-- The parameters of a function stand in a list below its declaration. -/
theorem parameter_mem {q : ParameterNode} (hq : q ∈ f.parameters) :
    ∃ m ∈ program.descendants, ∃ parameters, m.kind = .parameterList parameters ∧ q ∈ parameters := by
  obtain ⟨hmem, hparameters, name, parameters, returns, hk⟩ := hf.kind
  rw [hparameters] at hq
  unfold Node.parameters? at hq
  rw [hk] at hq
  split at hq
  · rename_i id span ps _ _ heq
    cases heq
    refine ⟨⟨id, span, .parameterList ps⟩, descendants_trans hmem (child_mem_descendants ?_), ps, rfl,
      hq⟩
    unfold Node.children
    rw [hk]
    simp [NodeKind.children]
  · cases hq
  · rename_i heq
    cases heq
  · cases hq

/-- The default values of a function are operands of its list of parameters. -/
theorem default_mem {q : ParameterNode} (hq : q ∈ f.parameters) (hn : q.default = some n) :
    ∃ m ∈ program.descendants, n ∈ m.kind.operands := by
  obtain ⟨m, hm, parameters, hk, hmem⟩ := hf.parameter_mem hq
  refine ⟨m, hm, ?_⟩
  rw [hk]
  exact List.mem_filterMap.2 ⟨q, hmem, hn⟩

end Node.Declares

/-! ## Agreement -/

/-- The control does on the image of the scopes what the markers do on the scopes, where the markers
say what the flow says. -/
structure Control.Faithful (c : Control) (e : ScopeTree → ScopeTree) : Prop where
  note : ∀ (s : State) x n t, s.scopes.markExecuted x n.id = .ok t →
    c.note x n { s with scopes := e s.scopes } = .ok () { s with scopes := e t }
  stops : ∀ (s : State) x n flow, s.scopes.skipsRest x n flow.isJump = .ok flow.isJump →
    c.stops x n flow { s with scopes := e s.scopes } =
      .ok flow.isJump { s with scopes := e s.scopes }

theorem Control.faithful_signals : signals.Faithful ScopeTree.unmarked where
  note s x n t ht := by
    obtain ⟨xs, -, hmodify⟩ := exists_ok_of_bind ht
    cases hmodify
    rw [ScopeTree.unmarked_modify_executed s.scopes x (KeySet.add · n.id)]
    rfl
  stops _ _ _ _ _ := rfl

theorem Control.faithful_audited (otherwise : Eval Bool) :
    (audited otherwise).Faithful fun t => t where
  note s x n t ht := by
    show Eval.changeScopes (fun t => t.markExecuted x n.id) s = _
    exact Eval.changeScopes_run ht
  stops s x n flow h := by
    have hask : markers.stops x n flow s = .ok flow.isJump s := by
      show Eval.askScopes (fun t => t.skipsRest x n flow.isJump) s = _
      exact Eval.askScopes_run h
    show ((markers.stops x n flow >>= fun answer =>
      if answer = flow.isJump then pure answer else otherwise) : Eval Bool) s = _
    rw [Step.run_bind, hask]
    show (if flow.isJump = flow.isJump then (pure flow.isJump : Eval Bool) else otherwise) s = _
    rw [if_pos rfl]
    rfl

/-- Visits of the nodes of a program end in the same way on both sides, and leave the markers of
their jumps. -/
def Agree (e : ScopeTree → ScopeTree) (program : Node) (visit visit' : Visit) : Prop :=
  ∀ shape x n, (∃ s, ScopeTree.find? shape x = some s) → n ∈ program.descendants →
    Alike (Beside (Mirrors e program shape)) (visit x n) (visit' x n)
      (fun flow => Beside (Ends e program shape x n.exposed flow)) (Beside (Image e))

/-- Both sides ask whether the rest is skipped, and are told whether the statement jumped. -/
theorem Control.Faithful.asks (hc : c.Faithful e) (hx : ∃ s, shape.find? x = some s)
    (hn : n ∈ program.descendants) :
    Alike (Beside (Ends e program shape x n.exposed flow))
      (Eval.askScopes fun t => t.skipsRest x n flow.isJump) (c.stops x n flow)
      (fun answer s s' => answer = flow.isJump ∧
        Beside (Ends e program shape x n.exposed flow) s s') (Beside (Image e)) := by
  rintro s _ ⟨u, h, hparked⟩
  obtain ⟨_, hshape⟩ := hx
  obtain ⟨xs, hxs, -⟩ := h.orderly.links.find? hshape
  have hskip := h.after.skipsRest hxs hn
  have hu : u = e s.scopes := h.image
  rw [Eval.askScopes_run hskip, hu, hc.stops s x n flow hskip]
  exact .ok ⟨rfl, e s.scopes, hu ▸ h, hparked⟩

/-- A jump leaves its own marker and no other. -/
theorem Control.Faithful.jump (hc : c.Faithful e) (hd : program.Disciplined)
    (hx : ∃ s, shape.find? x = some s) (hn : n ∈ program.descendants) (hjump : n.jump?.isSome)
    (hreturn : n.jump? = some .toCaller → ∃ value, flow = .returned value) :
    Alike (Beside (Mirrors e program shape)) (Eval.jump x n flow) (c.jump x n flow)
      (fun flow => Beside (Ends e program shape x n.exposed flow)) (Beside (Image e)) := by
  rintro s _ ⟨u, h, hparked⟩
  obtain ⟨_, hshape⟩ := hx
  obtain ⟨xs, hxs, -⟩ := h.orderly.links.find? hshape
  obtain ⟨t, ht, hr, hxs'⟩ := ScopeTree.markExecuted_of_find? hxs n.id
  have hu : u = e s.scopes := h.image
  have hleft : Eval.jump x n flow s = .ok flow { s with scopes := t } := by
    unfold Eval.jump
    rw [Step.run_bind, Eval.changeScopes_run ht]
    rfl
  have hright : c.jump x n flow { s with scopes := u } = .ok flow { s with scopes := e t } := by
    unfold Control.jump
    rw [Step.run_bind, hu, hc.note s x n t ht]
    rfl
  have hself : n ∈ n.exposed := n.self_mem_exposed
  rw [hleft, hright]
  refine .ok ⟨e t, ⟨rfl, h.orderly.remarked hr, fun _ => ?_, fun y ys m hys hm hj hmarked => ?_⟩,
    hparked⟩
  · exact ⟨n, hself, hjump, _, hxs', KeySet.contains_add.2 (.inl rfl)⟩
  · by_cases hy : y = x
    · subst hy
      rw [hxs'] at hys
      cases hys
      rcases KeySet.contains_add.1 hmarked with hid | hold
      · -- Ids are distinct, so the marker of a `return` is set by that `return` only.
        cases hd.eq_of_id hm hn hid
        exact ⟨rfl, hself, hreturn hj⟩
      · exact absurd hold (h.quiet y xs m hxs hm hj)
    · rw [hr.other y hy] at hys
      exact absurd hmarked (h.quiet y ys m hys hm hj)

namespace Agree

variable (ha : Agree e program visit visit') (hd : program.Disciplined)
  (hx : ∃ s, shape.find? x = some s)

include ha hx

/-! ### Expressions and calls -/

include hd in
/-- An operand does not jump. -/
theorem operand (hn : n ∈ program.descendants) {o : Node} (ho : o ∈ n.kind.operands) :
    Keeps (Mirrors e program shape) (Image e) (visit.evaluate x o) (visit'.evaluate x o) := by
  have hmem : o ∈ program.descendants := Node.descendants_trans hn
    (Node.child_mem_descendants (n.kind.operands_subset_children ho))
  refine Alike.map (ha shape x o hx hmem) fun flow s s' ⟨u, h, hparked⟩ => ⟨u, ?_, hparked⟩
  exact ⟨h.image, h.orderly, h.after.quiet_of_no_jumps (hd.operands n hn o ho)⟩

omit hx in
/-- Visiting a body leaves markers of `return`s of the body only. -/
theorem runBody (hx : ∃ s, shape.find? x = some s) {f : ScriptFunction} (hf : program.Declares f)
    {returns : ValueType} :
    Alike (Beside (Mirrors e program shape)) (Eval.runBody visit x f returns)
      (Eval.runBody visit' x f returns)
      (fun _ => Beside (Spent e program shape x f.body.exposed)) (Beside (Image e)) := by
  have hbody : f.body ∈ program.descendants :=
    Node.descendants_trans hf.kind.1 (Node.child_mem_descendants hf.body_mem)
  have himage : ∀ t u, Spent e program shape x f.body.exposed t u → Image e t u :=
    fun _ _ ⟨_, h⟩ => h.image
  have hvisit : Alike (Beside (Mirrors e program shape)) (visit.evaluate x f.body)
      (visit'.evaluate x f.body) (fun _ => Beside (Spent e program shape x f.body.exposed))
      (Beside (Image e)) :=
    Alike.map (ha shape x f.body hx hbody) fun flow _ _ h => h.mono fun _ _ h => ⟨flow, h⟩
  unfold Eval.runBody
  refine Alike.bind hvisit fun value => ?_
  refine Keeps.bind (Keeps.ofExcept himage _) fun value => ?_
  exact Keeps.bind (Keeps.changeThread _) fun _ => Keeps.pure _

omit ha hx in
theorem declareArguments (he : Transparent e) {depth : Nat} {bound : List (Parameter × Value)} :
    Keeps (Mirrors e program shape) (Image e) (Eval.declareArguments x depth bound)
      (Eval.declareArguments x depth bound) := by
  have himage : ∀ t u, Mirrors e program shape t u → Image e t u := fun _ _ h => h.image
  unfold Eval.declareArguments
  refine Keeps.mapM fun (q, value) _ => ?_
  refine Keeps.bind (Keeps.ofExcept himage _) fun v => ?_
  refine Keeps.bind (Keeps.changeScopes himage fun t u h => ?_) fun _ => Keeps.pure _
  exact (Mirrors.scopeRelation he).defineVariable h x v

/-- A call leaves no marker: those of its body are forgotten before its scope is released. -/
theorem runFunction (he : Transparent e) {f : ScriptFunction} (hf : program.Declares f)
    {bound : List (Parameter × Value)} {returns : ValueType} :
    Keeps (Mirrors e program shape) (Image e) (Eval.runFunction visit x f bound returns)
      (Eval.runFunction visit' x f bound returns) := by
  have hbody : f.body.exposed ⊆ f.declaration.descendants := fun m hm =>
    Node.mem_descendants_of_child hf.body_mem (f.body.exposed_subset_descendants hm)
  have hscope : Alike (Beside (Mirrors e program shape))
      (Eval.runFunction visit x f bound returns) (Eval.runFunction visit' x f bound returns)
      (fun _ => Beside (Ends e program shape x [] .none)) (Beside (Image e)) := by
    refine Mirrors.inNewScope he hx fun shape' inner hinner => ?_
    have himage : ∀ t u, Mirrors e program shape' t u → Image e t u := fun _ _ h => h.image
    have hrun : Alike (Beside (Mirrors e program shape'))
        (Eval.runInScope visit inner f bound returns) (Eval.runInScope visit' inner f bound returns)
        (fun _ => Beside (Spent e program shape' inner f.body.exposed)) (Beside (Image e)) := by
      unfold Eval.runInScope
      refine Alike.bind (Keeps.depth himage (Mirrors.scopeRelation he)) fun depth => ?_
      refine Alike.bind (declareArguments he) fun arguments => ?_
      refine Alike.bind (Keeps.changeThread _) fun _ => ?_
      exact (Keeps.onBreak (ha.runBody hinner hf)).thenAlways
        (fun _ => Keeps.updateThread (fun _ _ ⟨_, h⟩ => h.image) _)
        (Keeps.updateThread (fun _ _ h => h) _)
    refine (hrun.thenAlways (fun _ => Mirrors.clearExecuted he hinner hbody)
      (Mirrors.clearExecuted_image he)).weaken fun _ s s' h => ?_
    exact h.mono fun _ _ h => h.ends rfl
  exact hscope.weaken fun _ s s' h => h.mono fun _ _ h => h.mirrors fun _ hv => by cases hv

include hd in
theorem callees (he : Transparent e) :
    Callees program.Declares (Mirrors e program shape) (Image e) visit visit' x where
  sync _ hf := hf.sync hd
  defaults f hf q hq n hn := by
    obtain ⟨m, hm, hmem⟩ := hf.default_mem hq hn
    exact ha.operand hd hx hm hmem
  run _ hf _ _ := ha.runFunction hx he hf

/-! ### Statements -/

/-- A list of statements ends after the first that jumps, on both sides. -/
theorem runStatements (hc : c.Faithful e) {last : Flow} (hlast : last.isJump = false)
    (hl : ∀ n ∈ l, n ∈ program.descendants) :
    Alike (Beside (Mirrors e program shape)) (Eval.runStatements visit x last l)
      (c.runStatements visit' x last l)
      (fun flow => Beside (Ends e program shape x (l.flatMap Node.exposed) flow))
      (Beside (Image e)) := by
  induction l generalizing last with
  | nil => exact Alike.pure fun _ _ h => h.mono fun _ _ h => h.ends hlast
  | cons n l ih =>
    have hn := hl n List.mem_cons_self
    unfold Eval.runStatements Control.runStatements
    refine Alike.bind (ha shape x n hx hn) fun flow => ?_
    refine Alike.bind (hc.asks hx hn) fun answer s s' ⟨hanswer, h⟩ => ?_
    subst hanswer
    cases hf : flow.isJump with
    | true =>
      refine Alike.pure (fun _ _ h => h.mono fun _ _ h => h.mono ?_) s s' h
      exact List.subset_append_left _ _
    | false =>
      have hquiet : Beside (Mirrors e program shape) s s' := h.mono fun _ _ h =>
        h.mirrors fun value hv => by
          rw [hv] at hf
          cases hf
      have hrest := ih hf fun m hm => hl m (List.mem_cons_of_mem _ hm)
      refine (hrest s s' hquiet).mono (fun _ _ _ h => h.mono fun _ _ h => h.mono ?_) fun _ _ => id
      exact List.subset_append_right _ _

omit hx in
/-- The same in a scope of its own. -/
theorem block (he : Transparent e) (hc : c.Faithful e) (hx : ∃ s, shape.find? x = some s)
    (hl : ∀ n ∈ l, n ∈ program.descendants) :
    Alike (Beside (Mirrors e program shape))
      (Eval.inNewScope x fun inner => Eval.runStatements visit inner .none l)
      (Eval.inNewScope x fun inner => c.runStatements visit' inner .none l)
      (fun flow => Beside (Ends e program shape x (l.flatMap Node.exposed) flow))
      (Beside (Image e)) :=
  Mirrors.inNewScope he hx fun _ _ hinner => ha.runStatements hinner hc rfl hl

/-! ### Loops -/

omit ha hx in
/-- A loop forgets markers between two rounds, when none of a `return` is set. -/
theorem forget (he : Transparent e) (hx : ∃ s, shape.find? x = some s) {body : Node} :
    Keeps (Mirrors e program shape) (Image e)
      (Eval.changeScopes fun t => t.clearExecuted x body)
      (Eval.changeScopes fun t => t.clearExecuted x body) :=
  (Mirrors.clearExecuted he hx (List.nil_subset _)).strengthen fun _ _ h =>
    h.mono fun _ _ h => ⟨.none, h.ends rfl⟩

/-- How a round leaves the scopes: as a visit does that ends the loop, or ready for another. -/
abbrev Round (e : ScopeTree → ScopeTree) (program : Node) (shape : ScopeTree) (x : ScopeId)
    (l : List Node) : Option Flow → State → State → Prop :=
  Alike.Rounded (fun flow => Beside (Ends e program shape x l flow))
    (Beside (Mirrors e program shape))

omit ha hx in
theorem afterRound {s s' : State} (h : Beside (Ends e program shape x l flow) s s') :
    Round e program shape x l (Eval.afterRound flow) s s' := by
  cases flow with
  | value value => exact h.mono fun _ _ h => h.mirrors fun _ hv => by cases hv
  | returned value => exact h
  | broken => exact h.mono fun _ _ h => (h.mirrors fun _ hv => by cases hv).ends rfl
  | continued => exact h.mono fun _ _ h => h.mirrors fun _ hv => by cases hv

theorem whileRound (he : Transparent e) {condition body : Node}
    (hcondition : Keeps (Mirrors e program shape) (Image e) (visit.evaluate x condition)
      (visit'.evaluate x condition)) (hbody : body ∈ program.descendants) :
    Alike (Beside (Mirrors e program shape)) (Eval.whileRound visit x condition body)
      (Eval.whileRound visit' x condition body) (Round e program shape x body.exposed)
      (Beside (Image e)) := by
  unfold Eval.whileRound
  refine Alike.bind (forget he hx) fun _ => ?_
  refine Alike.bind hcondition fun value => ?_
  refine Alike.bind (Keeps.expectBool (fun _ _ h => h.image) value) fun b => ?_
  cases b with
  | true =>
    refine Alike.bind (ha shape x body hx hbody) fun flow => ?_
    exact Alike.pure fun _ _ h => afterRound h
  | false => exact Alike.pure fun _ _ h => h.mono fun _ _ h => h.ends rfl

theorem foreachRound (he : Transparent e) {target : LoopTarget} {body : Node}
    (hbody : body ∈ program.descendants) {round : Value × Value × Value} :
    Alike (Beside (Mirrors e program shape)) (Eval.foreachRound visit x target body round)
      (Eval.foreachRound visit' x target body round) (Round e program shape x body.exposed)
      (Beside (Image e)) := by
  unfold Eval.foreachRound
  refine Alike.bind (forget he hx) fun _ => ?_
  refine Alike.bind (Mirrors.inNewScope he hx fun shape' inner hinner => ?_) fun flow =>
    Alike.pure fun _ _ h => afterRound h
  exact Alike.bind (Alike.forM fun _ _ => Mirrors.declare he) fun _ =>
    ha shape' inner body hinner hbody

/-- The rounds for the items, and nothing if none of them ends the loop. -/
theorem foreachLoop (he : Transparent e) {target : LoopTarget} {iterable body : Node}
    (hiterable : Keeps (Mirrors e program shape) (Image e) (visit.evaluate x iterable)
      (visit'.evaluate x iterable)) (hbody : body ∈ program.descendants) :
    Alike (Beside (Mirrors e program shape))
      (do
        let iterable ← visit.evaluate x iterable
        let s ← Step.get
        let items ← Step.ofExcept (Eval.rounds s.heap iterable)
        return (← Step.firstOf (Eval.foreachRound visit x target body) items).getD .none)
      (do
        let iterable ← visit'.evaluate x iterable
        let s ← Step.get
        let items ← Step.ofExcept (Eval.rounds s.heap iterable)
        return (← Step.firstOf (Eval.foreachRound visit' x target body) items).getD .none)
      (fun flow => Beside (Ends e program shape x body.exposed flow)) (Beside (Image e)) := by
  refine Alike.bind hiterable fun value => ?_
  refine Alike.get_bind fun r r' hr => ?_
  obtain ⟨u, h, hparked⟩ := hr
  refine Alike.strengthen (R := Beside (Mirrors e program shape)) ?_ ?_
  · refine Alike.bind (Keeps.ofExcept (fun _ _ h => h.image) _) fun items => ?_
    refine Alike.bind (Alike.firstOf fun _ _ => ha.foreachRound hx he hbody) fun result => ?_
    cases result with
    | some flow => exact Alike.pure fun _ _ h => h
    | none => exact Alike.pure fun _ _ h => h.mono fun _ _ h => h.ends rfl
  · rintro s s' ⟨rfl, rfl⟩
    exact ⟨u, h, hparked⟩

/-! ### Nodes -/

omit ha hx in
/-- What a visit of a part left is what the visit of the whole leaves. -/
theorem widen {y y' : Eval Flow} (hl : l ⊆ n.exposed)
    (h : Alike (Beside (Mirrors e program shape)) y y'
      (fun flow => Beside (Ends e program shape x l flow)) (Beside (Image e))) :
    Alike (Beside (Mirrors e program shape)) y y'
      (fun flow => Beside (Ends e program shape x n.exposed flow)) (Beside (Image e)) :=
  h.weaken fun _ _ _ h => h.mono fun _ _ h => h.mono hl

include hd in
/-- **One step.** If the visits of other nodes agree, so does what visiting a node does. -/
theorem step (he : Transparent e) (hc : c.Faithful e) (hn : n ∈ program.descendants) :
    Alike (Beside (Mirrors e program shape)) (Eval.step engine limit visit x n)
      (c.step engine limit visit' x n)
      (fun flow => Beside (Ends e program shape x n.exposed flow)) (Beside (Image e)) := by
  have hchild : ∀ m ∈ n.kind.children, m ∈ program.descendants := fun m hm =>
    Node.descendants_trans hn (Node.child_mem_descendants hm)
  have hoperand : ∀ o ∈ n.kind.operands, Keeps (Mirrors e program shape) (Image e)
      (visit.evaluate x o) (visit'.evaluate x o) := fun o ho => ha.operand hd hx hn ho
  have hexposed : ∀ m ∈ n.kind.surface, m.exposed ⊆ n.exposed := fun m hm k hk =>
    Node.mem_exposed_of_surface hm hk
  have hlist := n.flatMap_exposed_subset
  have himage : ∀ t u, Mirrors e program shape t u → Image e t u := fun _ _ h => h.image
  by_cases hcontrol : n.kind.isControl
  case neg =>
    have hexpression := Bool.eq_false_iff.2 hcontrol
    rw [Control.step_of_expression hexpression]
    refine (Keeps.expression himage (Mirrors.scopeRelation he) (ha.callees hd hx he) hexpression
      hoperand fun m hm id implementation depth f hf => ?_).weaken fun flow s s' h =>
        h.1.mono fun _ _ hs => hs.ends h.2
    have hmem : m ∈ program.descendants := hm.elim (fun h => h ▸ hn) (hchild m)
    exact ⟨m, hmem, id, implementation, depth, hf⟩
  case pos =>
    unfold Control.step
    cases hk : n.kind <;> rw [hk] at hchild hoperand hexposed hlist hcontrol <;> dsimp only <;>
      unfold Eval.step <;> rw [hk]
    case program statements =>
      exact widen hlist (ha.runStatements hx hc rfl hchild)
    case block statements =>
      exact widen hlist (ha.block he hc hx hchild)
    case conditional condition thenBranch elseBranch =>
      refine Alike.bind (hoperand condition List.mem_cons_self) fun value => ?_
      refine Alike.bind (Keeps.expectBool himage value) fun b => ?_
      cases b with
      | true =>
        have hmem : thenBranch ∈ [condition, thenBranch] ++ elseBranch.toList := by simp
        exact widen (hexposed thenBranch hmem) (ha shape x thenBranch hx (hchild thenBranch hmem))
      | false =>
        cases elseBranch with
        | none => exact Alike.pure fun _ _ h => h.mono fun _ _ h => h.ends rfl
        | some branch =>
          have hmem : branch ∈ [condition, thenBranch] ++ (some branch).toList := by simp
          exact widen (hexposed branch hmem) (ha shape x branch hx (hchild branch hmem))
    case whileLoop condition body =>
      have hmem : body ∈ [condition, body] := by simp
      refine widen (hexposed body hmem) (Alike.loop ?_ fun _ _ h => h.mono himage)
      exact ha.whileRound hx he (hoperand condition List.mem_cons_self) (hchild body hmem)
    case foreachLoop target iterable body =>
      have hmem : body ∈ [iterable, body] := by simp
      refine widen (hexposed body hmem) ?_
      exact ha.foreachLoop hx he (hoperand iterable List.mem_cons_self) (hchild body hmem)
    case returnJump value =>
      refine Alike.bind (Keeps.evaluateOption hoperand) fun result => ?_
      refine hc.jump hd hx hn ?_ fun _ => ⟨result, rfl⟩
      rw [Node.jump?, hk]
      rfl
    case breakJump | continueJump =>
      refine hc.jump hd hx hn ?_ fun h => ?_
      · rw [Node.jump?, hk]
        rfl
      · rw [Node.jump?, hk] at h
        cases h
    all_goals cases hcontrol

end Agree

/-- **Whole visits.** They agree, however deep they go. -/
theorem agree_visit (he : Transparent e) (hc : c.Faithful e) (hd : program.Disciplined)
    (engine : Engine) (limit : Nat) :
    Agree e program (Eval.visit engine limit) (c.visit engine limit) := by
  induction limit with
  | zero => exact fun _ _ _ _ _ => Alike.exhaust fun _ _ h => h.mono fun _ _ h => h.image
  | succ limit ih => exact fun shape x n hx hn => Alike.mapError (ih.step hd hx he hc hn)

/-! ## Runs -/

/-- Changes the state that is left. -/
def Outcome.mapState {σ ε α : Type} (f : σ → σ) : Outcome σ ε α → Outcome σ ε α
  | .ok value s => .ok value (f s)
  | .error failure s => .error failure (f s)
  | .crashed s => .crashed (f s)
  | .blocked s => .blocked (f s)
  | .exhausted s => .exhausted (f s)

theorem Outcome.Alike.eq_mapState {σ ε α : Type} {Q : α → σ → σ → Prop} {E : σ → σ → Prop}
    {f : σ → σ} {o o' : Outcome σ ε α} (h : o.Alike Q E o') (hQ : ∀ a s s', Q a s s' → s' = f s)
    (hE : ∀ s s', E s s' → s' = f s) : o' = o.mapState f := by
  cases h with
  | ok h => rw [hQ _ _ _ h, mapState]
  | error h => rw [hE _ _ h, mapState]
  | crashed h => rw [hE _ _ h, mapState]
  | blocked h => rw [hE _ _ h, mapState]
  | exhausted h => rw [hE _ _ h, mapState]

/-- A state without the markers of its scopes. -/
def State.unmarked (s : State) : State := { s with scopes := s.scopes.unmarked }

/-- A run under a faithful control ends as the run by markers does, in the image of its scopes. -/
theorem Control.Faithful.run (hc : c.Faithful e) (he : Transparent e) (hd : program.Disciplined)
    (hinitial : e .initial = .initial) (engine : Engine) :
    c.run engine program .initial =
      (engine.run program .initial).mapState fun s => { s with scopes := e s.scopes } := by
  have hroot : ∃ s, ScopeTree.find? .initial ScopeTree.root = some s :=
    ⟨_, ScopeTree.find?_initial ScopeTree.root⟩
  have hstart : Beside (Mirrors e program .initial) .initial .initial :=
    ⟨.initial, ⟨hinitial.symm, .initial, .initial⟩, rfl⟩
  have hvisit := agree_visit he hc hd engine Eval.patience .initial ScopeTree.root program hroot
    program.self_mem_descendants
  have hvalue : Alike (Beside (Mirrors e program .initial)) (engine.run program)
      (c.run engine program) (fun _ => Beside (Image e)) (Beside (Image e)) :=
    Alike.map hvisit fun _ _ _ h => h.mono fun _ _ h => h.image
  have himage : ∀ s s', Beside (Image e) s s' → s' = { s with scopes := e s.scopes } := by
    rintro s _ ⟨u, hu, -⟩
    have hu : u = e s.scopes := hu
    rw [hu]
  exact (hvalue _ _ hstart).eq_mapState (fun _ => himage) himage

/-- **Markers and signals agree.** A run that notes no jumps and skips statements by the flow ends
as the run by markers does: with the same value or error, and in the same state but for the markers.
Nor does it matter what would happen if the markers ever said something else than the flow: they do
not. -/
theorem Engine.run_follows_signals (engine : Engine) {program : Node} (h : program.Disciplined) :
    Control.signals.run engine program .initial =
        (engine.run program .initial).mapState State.unmarked ∧
      ∀ otherwise, (Control.audited otherwise).run engine program .initial =
        engine.run program .initial := by
  refine ⟨Control.faithful_signals.run ScopeTree.transparent_unmarked h
    ScopeTree.unmarked_initial engine, fun otherwise => ?_⟩
  rw [(Control.faithful_audited otherwise).run ScopeTree.transparent_self h rfl engine]
  cases engine.run program .initial <;> rfl

/-- An engine without native functions. -/
def Engine.bare : Engine := ⟨.empty, .empty, Overload.select, .lenient, .empty⟩

/-- Declares a function that returns its argument, or else 1, out of a loop in which another loop
goes on with its next round, and returns what a call of it gives. -/
def Node.returningFromLoop : Node :=
  let node (id : Nat) (kind : NodeKind) : Node := ⟨id, .origin, kind⟩
  node 0 (.program [
    node 1 (.function "first" false
      (some (node 2 (.parameterList
        [⟨"p", false, none, some (node 3 (.literal (.int 1))), .origin⟩]))) none
      (node 4 (.block [
        node 5 (.whileLoop (node 6 (.literal (.bool true))) (node 7 (.block [
          node 8 (.foreachLoop (.value "v") (node 9 (.listLiteral [node 10 (.path "p")]))
            (node 11 (.block [node 12 .continueJump]))),
          node 13 (.conditional (node 14 (.literal (.bool true)))
            (node 15 (.returnJump (some (node 16 (.path "p"))))) none)]))),
        node 17 .breakJump]))),
    node 18 (.variableDeclaration "r" false none (some (node 19 (.call "first" [] none)))),
    node 20 (.returnJump (some (node 21 (.path "r"))))])

theorem Engine.run_follows_signals_returningFromLoop :
    Node.returningFromLoop.Disciplined ∧
      Control.signals.run .bare Node.returningFromLoop .initial =
        (Engine.bare.run Node.returningFromLoop .initial).mapState State.unmarked ∧
      ∀ otherwise, (Control.audited otherwise).run .bare Node.returningFromLoop .initial =
        Engine.bare.run Node.returningFromLoop .initial := by
  have h : Node.returningFromLoop.Disciplined := ⟨by decide, by decide, by decide⟩
  exact ⟨h, Engine.run_follows_signals .bare h⟩

end TreeScript
