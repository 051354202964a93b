import TreeScript.Proofs.Pairing.Path

/-!
# Calls in paired states

The two runs visit nodes by `visit` and `visit'`, of which `Visits` says that they follow each other
in every scope and on every line where a node may be visited. What tasks do is put off: `TaskRules`
asks that spawning, settling and the outcomes of tasks agree. Then calls follow each other too.

The callee may differ on the two sides as far as the pairing allows, so every lemma about a call
takes the two callees. They resemble each other wherever they are compared.
-/

namespace TreeScript

open Eval

/-- Callables that differ at most in what calls do not read. -/
inductive Callable.Resembles : Callable → Callable → Prop
  | script {f f' : ScriptFunction} (h : f.Resembles f') : Resembles (.script f) (.script f')
  | native (m : Native) : Resembles (.native m) (.native m)
  | overloads (members : List Callable) : Resembles (.overloads members) (.overloads members)

theorem Callable.Resembles.refl (c : Callable) : c.Resembles c := by
  cases c with
  | script f => exact .script (.refl f)
  | native m => exact .native m
  | overloads members => exact .overloads members

theorem State.callableSignature_single (s : State) (c : Callable) :
    s.callableSignature? (.overloads [c]) = s.callableSignature? c := by
  unfold State.callableSignature?
  rw [Callable.signatureText?, Callable.signatureTexts?, Callable.signatureTexts?]
  cases c.signatureText? s.functionSignature? <;> rfl

/-- What a call does once the arguments are bound. -/
def Eval.launch (visit : Visit) (scope : ScopeId) (f : ScriptFunction)
    (bound : List (Parameter × Value)) (returns : ValueType) : Eval Value :=
  if f.isAsync then
    spawn visit scope f.qualifiedName (some (.generated f.depth f.qualifiedName)) false
      (.call scope f bound returns)
  else inCall f (runFunction visit scope f bound returns)

namespace Pairing

variable {P : Pairing} {engine : Engine} {visit visit' : Visit} {p : Prop} {v : P.View} {u : P.Line}
  {scope : ScopeId}

/-- The second way to visit nodes follows the first. -/
def Visits (P : Pairing) (visit visit' : Visit) : Prop :=
  ∀ v u scope n, P.Follows (P.allowed v scope n ∧ P.ready u) Eq P.errors v u (visit scope n)
    (visit' scope n)

theorem Visits.evaluate (hv : P.Visits visit visit') (n : Node) :
    P.Follows (P.allowed v scope n ∧ P.ready u) Eq P.errors v u (visit.evaluate scope n)
      (visit'.evaluate scope n) := .map_same _ (hv v u scope n)

/-- What the look-up of a name can give on the two sides. -/
inductive Found (P : Pairing) (engine : Engine) : Callable → Callable → Prop
  | single {c c' : Callable} (h : P.Bound engine c c') : Found P engine c c'
  | several (name : String) : Found P engine (.overloads ((engine.natives name).map .native))
      (.overloads ((engine.natives name).map .native))

/-- What tasks have to satisfy. -/
structure TaskRules (P : Pairing) (visit visit' : Visit) : Prop where
  spawn : ∀ v u n scope f f' bound returns,
    P.Follows ((P.allowed v scope n ∧ P.ready u) ∧ P.callees f f' ∧ f.isAsync = true)
      Eq P.errors v u (launch visit scope f bound returns) (launch visit' scope f' bound returns)
  settle : ∀ v u, P.Follows (P.ready u) Eq P.errors v u (settle visit) (settle visit')
  outcome : ∀ v u id, P.Follows (P.ready u) (Option.Rel (Results Eq P.errors)) P.errors v u
    (outcome? id) (outcome? id)

namespace Laws

open Follows

variable (hl : P.Laws engine)

include hl

/-! ## Running functions -/

theorem inCall {α : Type} {V : α → α → Prop} {f f' : ScriptFunction} {x x' : Eval α}
    (hf : p → P.functions f f') (hx : P.Follows p V P.errors v u x x') :
    P.Follows p V P.errors v u (inCall f x) (inCall f' x') := by
  refine mapErrorWith hx fun e e' s s' hp he hs => ?_
  rw [(hl.resembles (hf hp)).qualifiedName, hs.functionSignature]
  exact rel_map (hl.text (hf hp) s) fun _ _ ht => hl.inside he ht _

theorem scopeDepth (scope : ScopeId) : P.Follows p Eq Eq v u (depth scope) (depth scope) :=
  askScopes (fun _ => rfl) fun _ _ _ h => hl.depth h scope

theorem declareArguments (depth : Nat) (bound : List (Parameter × Value)) :
    P.Follows p Eq Eq v u (declareArguments scope depth bound)
      (declareArguments scope depth bound) := by
  refine mapM fun b _ => bind_ofExcept (fun _ => rfl) fun x hx => ?_
  refine bind_same (changeScopes (fun _ => rfl) fun _ _ _ h => ?_) fun _ => .pure _
  exact hl.defineVariable h scope (Variable.admitted_of_make hx)

/-- The body of a function and the check of what it returns. -/
theorem concluded (hv : P.Visits visit visit') {f f' : ScriptFunction} (hres : f.Resembles f')
    (hbody : p → P.allowed v scope f.body ∧ P.ready u) (returns : ValueType) :
    P.Follows p Eq P.errors v u
      (do Step.ofExcept (conclude f returns (← visit.evaluate scope f.body)))
      (do Step.ofExcept (conclude f' returns (← visit'.evaluate scope f'.body))) := by
  have hconclude (value : Value) : conclude f' returns value = conclude f returns value := by
    unfold conclude
    rw [hres.qualifiedName]
  rw [hres.body]
  refine bind_same ((hv.evaluate f.body).given hbody) fun value => ?_
  rw [hconclude]
  exact ofExcept_same hl.refl _

theorem runInScope (hv : P.Visits visit visit') {f f' : ScriptFunction} (hres : f.Resembles f')
    (hf : p → P.callees f f') (hbody : p → P.allowed v scope f.body)
    (bound : List (Parameter × Value)) (returns : ValueType) :
    P.Follows p Eq P.errors v u (runInScope visit scope f bound returns)
      (runInScope visit' scope f' bound returns) := by
  unfold Eval.runInScope
  refine bind_same ((hl.scopeDepth scope).loosen hl.refl) fun depth => ?_
  refine bind_same ((hl.declareArguments depth bound).loosen hl.refl) fun arguments => ?_
  have hframe := inFrame (u := u) hl.toThreadLaws hf arguments scope fun w =>
    hl.concluded hv hres (fun h => ⟨hbody h.1, h.2⟩) returns
  unfold runBody
  simpa only [bind_assoc] using hframe

theorem runFunction (hv : P.Visits visit visit') {f f' : ScriptFunction} (hres : f.Resembles f')
    (hf : p → P.callees f f') (bound : List (Parameter × Value)) (returns : ValueType) :
    P.Follows p Eq P.errors v u (runFunction visit scope f bound returns)
      (runFunction visit' scope f' bound returns) := by
  refine inNewScope hl.toScopeLaws hl.refl fun w inner => thenAlways (W := Eq) ?_ ?_
  · exact hl.runInScope hv hres (fun h => hf h.1) (fun h => h.2.body f f' (hf h.1).1) bound
      returns
  · exact changeScopes hl.refl fun _ _ _ h => hl.clearExecuted h inner hres.markers

/-! ## Preparing functions -/

theorem prepareParameter (hv : P.Visits visit visit') {parameter : ParameterNode}
    (hd : ∀ n, parameter.default = some n → p → P.allowed v scope n ∧ P.ready u) :
    P.Follows p Eq P.errors v u (prepareParameter visit scope parameter)
      (prepareParameter visit' scope parameter) := by
  unfold Eval.prepareParameter
  dsimp only
  cases hn : parameter.default with
  | none => exact .pure _
  | some n =>
    refine bind_same ((hv.evaluate n).given (hd n hn)) fun value => ?_
    exact bind_same (.map_same _ (ofExcept_same hl.refl _)) fun _ => .pure _

omit hl in
/-- The signature of a function is kept. -/
theorem sign {id : Nat} (signature : Signature) (hid : p → P.signable id) :
    P.Follows p Eq P.errors v u
      (Step.modify fun s => { s with signatures := s.signatures.insert id signature })
      (Step.modify fun s => { s with signatures := s.signatures.insert id signature }) := by
  refine modify (fun _ => ⟨Nat.le_refl _, List.prefix_refl _⟩) fun s s' hp hs => ?_
  obtain ⟨hscopes, hthreads, hworld, htasks, hparked, hsigned⟩ := hs
  refine ⟨hscopes, hthreads, hworld, htasks, hparked, fun i hi => ?_⟩
  rw [Table.find?_insert] at hi
  split at hi
  · next h => exact h ▸ hid hp
  · exact hsigned i hi

theorem makeSignature (hv : P.Visits visit visit') {f f' : ScriptFunction} (hres : f.Resembles f')
    (hd : ∀ parameter ∈ f.parameters, ∀ n, parameter.default = some n →
      p → P.allowed v scope n ∧ P.ready u)
    (hid : p → P.signable f.id) :
    P.Follows p Eq P.errors v u (makeSignature visit scope f) (makeSignature visit' scope f') := by
  unfold Eval.makeSignature
  rw [hres.parameters, hres.returns, hres.id]
  refine bind_same (mapM fun parameter hmem => hl.prepareParameter hv (hd parameter hmem))
    fun parameters => ?_
  exact bind_same (sign _ hid) fun _ => .pure _

/-- A function that has been prepared is one that may be. -/
theorem prepared (hv : P.Visits visit visit') {f f' : ScriptFunction} (hres : f.Resembles f')
    (hf : p → P.functions f f') {n : Node} (hn : p → P.allowed v scope n ∧ P.ready u) :
    P.Follows p (fun a a' => a = a' ∧ P.signable f.id) P.errors v u (prepare visit scope f)
      (prepare visit' scope f') := by
  unfold Eval.prepare
  rw [hres.id, hres.qualifiedName]
  refine get_at (I := fun s s' => s'.signatures = s.signatures ∧ s'.held = s.held ∧
    s'.thread.preparing = s.thread.preparing) (fun _ => ⟨rfl, rfl, rfl⟩) (fun s s' hs => ?_)
    fun t t' ht => ?_
  · have hthreads := hl.preparing hs.threads
    obtain ⟨⟩ := hs
    exact ⟨rfl, rfl, hthreads⟩
  · obtain ⟨hsignatures, hheld, hpreparing⟩ := ht
    rw [hsignatures, hheld, hpreparing]
    cases hsig : t.signatures.find? f.id with
    | some signature =>
      refine .pure fun _ _ hs => ?_
      obtain ⟨⟨rfl, rfl⟩, -, hs⟩ := hs
      exact ⟨⟨rfl, hs.signed f.id (by rw [hsig]; rfl)⟩, hs⟩
    | none =>
      dsimp only
      split
      · refine .fail fun _ _ hs => ?_
        obtain ⟨⟨rfl, rfl⟩, -, hs⟩ := hs
        exact ⟨hl.refl _, hs⟩
      · split
        · refine .block fun _ _ hs => ?_
          obtain ⟨⟨rfl, rfl⟩, -, hs⟩ := hs
          exact hs.apart
        · next hidle hfree =>
          refine Step.Follows.strengthen (whilePreparing (p := p) hl.toThreadLaws fun w => ?_)
            fun s s' hs => ?_
          · refine (keep (hl.makeSignature hv hres (fun parameter hmem m hm h => ?_)
              fun h => h.2.2)).weaken fun _ _ h => ⟨h.1, h.2.2.2⟩
            exact ⟨hl.default (hn h.1).1 (hf h.1) hmem hm, h.2.1 (hn h.1).2⟩
          · obtain ⟨⟨rfl, rfl⟩, hp, hs⟩ := hs
            exact ⟨hp, ⟨by simpa using hidle, by simpa using hfree⟩, hs⟩

/-! ## Calling what was found -/

theorem launch (hv : P.Visits visit visit') (ht : P.TaskRules visit visit')
    {f f' : ScriptFunction} (hres : f.Resembles f') (hf : p → P.callees f f') {n : Node}
    (hn : p → P.allowed v scope n ∧ P.ready u) (bound : List (Parameter × Value))
    (returns : ValueType) :
    P.Follows p Eq P.errors v u (launch visit scope f bound returns)
      (launch visit' scope f' bound returns) := by
  cases hasync : f.isAsync with
  | true =>
    exact (ht.spawn v u n scope f f' bound returns).given fun h => ⟨hn h, hf h, hasync⟩
  | false =>
    have hrun {q : Prop} {g : ScriptFunction} (hres : f.Resembles g) (hg : q → P.callees f g) :
        P.Follows q Eq P.errors v u (Eval.inCall f (Eval.runFunction visit scope f bound returns))
          (Eval.inCall g (Eval.runFunction visit' scope g bound returns)) :=
      hl.inCall (fun h => (hg h).1) (hl.runFunction hv hres hg bound returns)
    unfold Eval.launch
    rw [hasync]
    -- Whether the second callee runs at once is known only where the two are compared.
    refine assuming (hrun (.refl f) False.elim) fun h => ?_
    rw [hl.sync (hf h) hasync]
    exact hrun hres hf

theorem invokeScript (hv : P.Visits visit visit') (ht : P.TaskRules visit visit')
    {f f' : ScriptFunction} (hres : f.Resembles f') (hf : p → P.functions f f')
    {n : Node} (hn : p → P.allowed v scope n ∧ P.ready u) (arguments : List Argument) :
    P.Follows p Eq P.errors v u (invokeScript visit scope f arguments)
      (invokeScript visit' scope f' arguments) := by
  refine bind_having (hl.inCall hf (hl.prepared hv hres hf hn)) fun signature => ?_
  refine bind_same (hl.inCall (fun h => hf h.1) (ofExcept_same hl.refl _)) fun bound => ?_
  exact hl.launch hv ht hres (fun h => ⟨hf h.1, h.2⟩) (fun h => hn h.1) bound _

theorem invokeMember (hv : P.Visits visit visit') (ht : P.TaskRules visit visit') {c c' : Callable}
    (hc : c.Resembles c') (hb : p → P.Found engine c c') {n : Node}
    (hn : p → P.allowed v scope n ∧ P.ready u) (name : String) (arguments : List Argument)
    (span : Span) :
    P.Follows p Eq P.errors v u (invokeMember visit scope name c arguments span)
      (invokeMember visit' scope name c' arguments span) := by
  cases hc with
  | @script f f' hres =>
    have hf (hp : p) : P.functions f f' := by
      obtain ⟨⟨h⟩⟩ := hb hp
      exact h
    refine mapErrorWith (hl.invokeScript hv ht hres hf hn arguments) fun e e' s s' hp he hs => ?_
    rw [hs.callableSignature]
    exact rel_map (hl.text (hf hp) s) fun _ _ ht => hl.inside he ht name
  | native m =>
    refine (hl.invokeNative (fun hp => ?_) arguments span).loosen hl.refl
    obtain ⟨⟨⟩ | ⟨h⟩⟩ := hb hp
    exact ⟨_, h⟩
  | overloads members =>
    refine failWith fun s s' _ hs => ?_
    rw [hs.callableSignature]
    exact rel_self fun _ _ => hl.refl _

/-- A position in a list of one. -/
theorem pickSingle {c c' : Callable} (hb : p → P.Found engine c c') (name : String)
    (arguments : List Argument) (i : Nat) :
    P.Follows p Eq P.errors v u (pick engine name [c] arguments (some i))
      (pick engine name [c'] arguments (some i)) := by
  by_cases hi : i < 1
  · have hpick (c : Callable) : pick engine name [c] arguments (some i) = Pure.pure i := if_pos hi
    rw [hpick, hpick]
    exact .pure i
  · have hpick (c : Callable) : pick engine name [c] arguments (some i) = Step.failWith fun s =>
        (s.callableSignature? (.overloads [c])).map
          (.within (.of (.overloadIndex name 1 i)) name) := if_neg hi
    rw [hpick, hpick]
    refine failWith fun s s' hp hs => ?_
    rw [hs.callableSignature, s.callableSignature_single, s.callableSignature_single]
    rcases hb hp with ⟨hf | hn⟩ | name
    · exact rel_map (hl.text hf s) fun _ _ ht => hl.within ht _
    · exact rel_self fun _ _ => hl.refl _
    · exact rel_self fun _ _ => hl.refl _

omit hl in
theorem pick (name : String) (candidates : List Callable) (arguments : List Argument)
    (index : Option Nat) :
    P.Follows p Eq Eq v u (pick engine name candidates arguments index)
      (pick engine name candidates arguments index) := by
  cases index with
  | none => exact choose ..
  | some i =>
    by_cases hi : i < candidates.length
    · have hpick : Eval.pick engine name candidates arguments (some i) = Pure.pure i := if_pos hi
      rw [hpick]
      exact .pure i
    · have hpick : Eval.pick engine name candidates arguments (some i) = Step.failWith fun s =>
          (s.callableSignature? (.overloads candidates)).map
            (.within (.of (.overloadIndex name candidates.length i)) name) := if_neg hi
      rw [hpick]
      refine failWith fun s s' _ hs => ?_
      rw [hs.callableSignature]
      exact rel_self fun _ _ => rfl

theorem invoke (hv : P.Visits visit visit') (ht : P.TaskRules visit visit') {c c' : Callable}
    (hc : c.Resembles c') (hb : p → P.Found engine c c') {n : Node}
    (hn : p → P.allowed v scope n ∧ P.ready u) (name : String) (arguments : List Argument)
    (index : Option Nat) (span : Span) :
    P.Follows p Eq P.errors v u (invoke engine visit scope name c arguments index span)
      (invoke engine visit' scope name c' arguments index span) := by
  have hsingle {c c' : Callable} (hc : c.Resembles c') (hb : p → P.Found engine c c') (i : Nat) :
      P.Follows p Eq P.errors v u
        (invokeOverloads engine visit scope name [c] arguments (some i) span)
        (invokeOverloads engine visit' scope name [c'] arguments (some i) span) := by
    refine bind_same (hl.pickSingle hb name arguments i) fun j => ?_
    cases j with
    | zero => exact hl.invokeMember hv ht hc hb hn name arguments span
    | succ j => exact crash
  cases hc with
  | script hres =>
    cases index with
    | some i => exact hsingle (.script hres) hb i
    | none =>
      refine hl.invokeScript hv ht hres (fun hp => ?_) hn arguments
      obtain ⟨⟨h⟩⟩ := hb hp
      exact h
  | native m =>
    cases index with
    | some i => exact hsingle (.native m) hb i
    | none =>
      refine (hl.invokeNative (fun hp => ?_) arguments span).loosen hl.refl
      obtain ⟨⟨⟩ | ⟨h⟩⟩ := hb hp
      exact ⟨_, h⟩
  | overloads members =>
    refine bind_same ((pick name members arguments index).loosen hl.refl) fun i => ?_
    cases hi : members[i]? with
    | none => exact crash
    | some member =>
      refine hl.invokeMember hv ht (.refl member) (fun hp => ?_) hn name arguments span
      obtain ⟨⟨⟩⟩ | ⟨origin⟩ := hb hp
      obtain ⟨m, hm, rfl⟩ := List.mem_map.1 (List.mem_of_getElem? hi)
      exact .single (.native hm)

/-! ## Names -/

omit hl in
theorem found_natives (name : String) :
    Option.Rel (P.Found engine) (Callable.ofCandidates? ((engine.natives name).map .native))
      (Callable.ofCandidates? ((engine.natives name).map .native)) := by
  cases hnatives : engine.natives name with
  | nil => exact .none
  | cons n rest =>
    cases rest with
    | nil => exact .some (.single (.native (show n ∈ engine.natives name by simp [hnatives])))
    | cons m rest =>
      have h : P.Found engine _ _ := .several name
      rw [hnatives] at h
      exact .some h

theorem findCallable (hr : p → P.ready u) (name : String) :
    P.Follows p (Option.Rel (P.Found engine)) P.errors v u (findCallable engine scope name false)
      (findCallable engine scope name false) := by
  refine asks fun s s' hp hs => ?_
  rw [hl.implementation hs.threads (hr hp)]
  cases ScopeTree.expandSelf s.thread.implementation name with
  | error e => exact .error (hl.refl e)
  | ok name =>
    have hget := hl.get hs.scopes scope
    simp only [Bind.bind, Except.bind]
    generalize s.scopes.get scope = r at hget
    generalize s'.scopes.get scope = r' at hget
    cases hget with
    | error he => exact .error (he ▸ hl.refl _)
    | ok =>
      dsimp only
      rcases hl.callable hs.scopes scope name with ⟨hc, hc'⟩ | ⟨f, f', hc, hc', hf⟩
      · rw [hc, hc']
        exact .ok (found_natives name)
      · rw [hc, hc']
        exact .ok (.some (.single (.script hf)))

theorem getCallable (hr : p → P.ready u) (name : String) :
    P.Follows p (P.Found engine) P.errors v u (getCallable engine scope name false)
      (getCallable engine scope name false) := by
  have hmissing {q : Prop} (e : Error) :
      P.Follows q (P.Found engine) P.errors v u (Step.fail e) (Step.fail e) :=
    .fail fun _ => hl.refl e
  refine bind (hl.findCallable hr name) fun c c' => ?_
  cases c with
  | none =>
    refine assuming (hmissing _) fun h => ?_
    cases h.2
    exact hmissing _
  | some c =>
    refine assuming (.pure c) fun h => ?_
    obtain ⟨-, ⟨hc⟩⟩ := h
    exact value fun _ => hc

omit hl in
theorem Found.resembles (hfun : P.FunctionLaws) {c c' : Callable} (h : P.Found engine c c') :
    c.Resembles c' := by
  rcases h with ⟨hf | hn⟩ | name
  · exact .script (hfun.resembles hf)
  · exact .refl _
  · exact .refl _

theorem call (hv : P.Visits visit visit') (ht : P.TaskRules visit visit') {n : Node}
    (hn : p → P.allowed v scope n ∧ P.ready u) (name : String) (arguments : List Argument)
    (index : Option Nat) (span : Span) :
    P.Follows p Eq P.errors v u (call engine visit scope name arguments index span)
      (call engine visit' scope name arguments index span) := by
  refine underCallId hl.toThreadLaws fun w => ?_
  refine bind (mapError (hl.getCallable (fun h => h.2 (hn h.1).2) name) fun e e' he =>
    hl.located he span) fun c c' => ?_
  have hready (h : (p ∧ (P.ready u → P.ready w)) ∧ P.Found engine c c') :
      P.allowed v scope n ∧ P.ready w := ⟨(hn h.1.1).1, h.1.2 (hn h.1.1).2⟩
  refine mapError ?_ fun e e' he => hl.located he span
  refine assuming (hl.invoke hv ht (.refl c) False.elim (n := n) False.elim name arguments index span)
    fun h => ?_
  exact hl.invoke hv ht (Found.resembles hl.toFunctionLaws h.2) (fun h => h.2) hready name arguments
    index span

end Laws

end Pairing

end TreeScript
