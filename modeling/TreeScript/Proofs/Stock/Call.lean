import TreeScript.Proofs.Stock.Path

/-!
# Calls and tasks in stock

A function that is called was made under its id, so the signature that is kept under this id has the
result type that the function declares (`Keeps.prepare`), and what the call returns is of this type.
A task keeps what it was given and what comes of it; what a job that has to wait did is undone, and then
fewer functions have been made.
-/

namespace TreeScript

/-! ## Binding arguments -/

namespace Binding

variable {V : Value → Prop} {slots slots' : Slots}

/-- The values of the slots satisfy `V`. -/
def Slots.Stocked (V : Value → Prop) (slots : Slots) : Prop := ∀ v, some v ∈ slots → V v

theorem Slots.Stocked.set (h : slots.Stocked V) (index : Nat) {value : Value} (hvalue : V value) :
    Slots.Stocked V (slots.set index (some value)) := fun v hv => by
  rcases List.mem_or_eq_of_mem_set hv with hv | hv
  · exact h v hv
  · cases hv
    exact hvalue

theorem Slots.Stocked.fill (h : slots.Stocked V) (order : List Nat) {values : List Value}
    (hvalues : ∀ v ∈ values, V v) : Slots.Stocked V (fill slots order values) := by
  unfold Binding.fill
  induction order generalizing slots values with
  | nil => exact h
  | cons index order ih =>
    cases values with
    | nil => exact h
    | cons value values =>
      exact ih (h.set index (hvalues value List.mem_cons_self))
        fun v hv => hvalues v (List.mem_cons_of_mem _ hv)

theorem stocked_of_unnamed {parameters : List Parameter} {arguments rest : List Argument} {index : Nat}
    (h : slots.Stocked V) (hrest : ∀ a ∈ rest, V a.value)
    (hfill : unnamed parameters arguments index rest slots = .ok slots') : slots'.Stocked V := by
  induction rest generalizing index slots with
  | nil =>
    cases hfill
    exact h
  | cons a rest ih =>
    have htail : ∀ b ∈ rest, V b.value := fun b hb => hrest b (List.mem_cons_of_mem _ hb)
    unfold unnamed at hfill
    split at hfill
    · exact ih h htail hfill
    · split at hfill
      · exact ih h htail hfill
      · split at hfill
        · cases hfill
        · exact ih (h.set index (hrest a List.mem_cons_self)) htail hfill

theorem stocked_of_named {parameters : List Parameter} {arguments : List Argument}
    (h : slots.Stocked V) (harguments : ∀ a ∈ arguments, V a.value)
    (hfill : named parameters arguments slots = .ok slots') : slots'.Stocked V := by
  induction arguments generalizing slots with
  | nil =>
    cases hfill
    exact h
  | cons a arguments ih =>
    have htail : ∀ b ∈ arguments, V b.value := fun b hb => harguments b (List.mem_cons_of_mem _ hb)
    obtain ⟨_ | name, value⟩ := a
    · exact ih h htail hfill
    · unfold named at hfill
      split at hfill
      · cases hfill
      · split at hfill
        · cases hfill
        · exact ih (h.set _ (harguments _ List.mem_cons_self)) htail hfill

/-- Every parameter takes the value of a slot or its default. -/
theorem stocked_of_complete {parameters : List Parameter} {bound : List (Parameter × Value)}
    (h : slots.Stocked V) (hdefaults : ∀ p ∈ parameters, ∀ v, p.default = some v → V v)
    (hbound : complete parameters slots = .ok bound) :
    ∀ b ∈ bound, V b.2 ∧ ∀ v, b.1.default = some v → V v := by
  induction parameters generalizing slots bound with
  | nil =>
    cases hbound
    exact fun _ hb => nomatch hb
  | cons p rest ih =>
    unfold complete at hbound
    split at hbound
    · cases hbound
    · next value hvalue =>
      have hV : V value := by
        rcases Option.or_eq_some_iff.1 hvalue with hslot | ⟨-, hdefault⟩
        · cases slots with
          | nil => cases hslot
          | cons slot slots =>
            cases slot with
            | none => cases hslot
            | some w =>
              cases hslot
              exact h _ List.mem_cons_self
        · exact hdefaults p List.mem_cons_self value hdefault
      obtain ⟨others, hrest, hbound⟩ := exists_ok_of_bind hbound
      cases hbound
      have htail := ih (fun v hv => h v (List.mem_of_mem_tail hv))
        (fun q hq => hdefaults q (List.mem_cons_of_mem _ hq)) hrest
      rintro b (_ | ⟨_, hb⟩)
      · exact ⟨hV, hdefaults p List.mem_cons_self⟩
      · exact htail b hb

end Binding

theorem stocked_of_bindArguments {V : Value → Prop} {parameters : List Parameter}
    {arguments : List Argument} {bound : List (Parameter × Value)}
    (hdefaults : ∀ p ∈ parameters, ∀ v, p.default = some v → V v)
    (harguments : ∀ a ∈ arguments, V a.value) (h : bindArguments parameters arguments = .ok bound) :
    ∀ b ∈ bound, V b.2 ∧ ∀ v, b.1.default = some v → V v := by
  have hempty : Binding.Slots.Stocked V (List.replicate parameters.length none) := fun v hv => by
    cases (List.mem_replicate.1 hv).2
  unfold bindArguments at h
  cases hcauses : bindCauses parameters arguments with
  | error e =>
    rw [hcauses] at h
    cases h
  | ok others =>
    rw [hcauses] at h
    cases h
    unfold bindCauses at hcauses
    split at hcauses
    · cases hcauses
    · dsimp only at hcauses
      split at hcauses
      · obtain ⟨slots, hslots, hcomplete⟩ := exists_ok_of_bind hcauses
        obtain ⟨part, hunnamed, hnamed⟩ := exists_ok_of_bind hslots
        have hpart := Binding.stocked_of_unnamed hempty harguments hunnamed
        exact Binding.stocked_of_complete (Binding.stocked_of_named hpart harguments hnamed) hdefaults
          hcomplete
      · obtain ⟨slots, hslots, hcomplete⟩ := exists_ok_of_bind hcauses
        unfold Binding.byPosition at hslots
        dsimp only at hslots
        split at hslots
        · cases hslots
        · cases hslots
          refine Binding.stocked_of_complete (hempty.fill _ fun v hv => ?_) hdefaults hcomplete
          obtain ⟨a, ha, rfl⟩ := List.mem_map.1 hv
          exact harguments a ha

/-! ## Frames and tasks -/

theorem Eval.stocked_of_conclude {V : Value → Prop} (hV : ValueLaws V) {f : ScriptFunction}
    {T : ValueType} {result v : Value} (hresult : V result) (h : Eval.conclude f T result = .ok v) :
    V v := by
  unfold Eval.conclude at h
  split at h
  · cases h
    exact hV.none
  · exact hV.adapt? hresult (ValueType.adaptAs_eq_ok h)

namespace State.Stocked

variable {V : Value → Prop} {made more : List ScriptFunction} {s outer : State} {job : Job}

theorem pushTask (h : s.Stocked V made) (label : String) :
    ({ s with tasks := s.tasks.push (.started label) } : State).Stocked V made := by
  refine { h with outcomes := fun i task v htask hv => ?_ }
  dsimp only at htask
  rw [Array.getElem?_push] at htask
  split at htask
  · cases htask
    cases hv
  · exact h.outcomes i task v htask hv

theorem enterTask (h : s.Stocked V made) (job : Job) : (Eval.enterTask s job).Stocked V made :=
  { h with frames := fun _ hf => nomatch hf }

/-- The task has its outcome, and the thread is the outer one again. -/
theorem leaveTask (houter : outer.Stocked V made) (h : s.Stocked V more) (job : Job)
    {outcome : Except Error Value} (houtcome : ∀ v, outcome = .ok v → V v) :
    (Eval.leaveTask outer s job outcome).Stocked V more where
  scopes := ScopeTree.Stocked.endTask h.scopes job.owner
  world := h.world
  frames := houter.frames
  signatures := h.signatures
  next := h.next
  parked := h.parked
  outcomes i task v htask hv := by
    simp only [Eval.leaveTask, State.modifyTask, Array.getElem?_modify] at htask
    split at htask
    · obtain ⟨before, -, rfl⟩ := Option.map_eq_some_iff.1 htask
      exact houtcome v (Option.some.inj hv)
    · exact h.outcomes i task v htask hv

theorem park (houter : outer.Stocked V made) (s : State) (hjob : job.work.Stocked V) :
    (Eval.park outer s job).Stocked V made := by
  refine { houter with world := ⟨houter.world.heap, houter.world.entered⟩, parked := fun j hj => ?_ }
  rcases List.mem_append.1 hj with hj | hj
  · exact houter.parked j hj
  · cases List.mem_singleton.1 hj
    exact hjob

end State.Stocked

namespace Stock

open Eval

variable {V : Value → Prop} {made : List ScriptFunction} {engine engine' : Engine}
  {visit visit' : Visit}

/-- Visits keep the stock and give values that satisfy `V`. -/
def Visits (V : Value → Prop) (visit visit' : Visit) : Prop :=
  ∀ made scope n, Keeps V made (fun flow => V flow.toValue) (visit scope n) (visit' scope n)

namespace Keeps

theorem inCall {α : Type} {Q : α → Prop} {x x' : Eval α} (f : ScriptFunction) (h : Keeps V made Q x x') :
    Keeps V made Q (inCall f x) (inCall f x') := h.mapErrorWith

theorem depth (scope : ScopeId) : Keeps V made Any (depth scope) (depth scope) :=
  .askScopes fun _ _ _ _ _ => trivial

theorem evaluate (hv : Visits V visit visit') (scope : ScopeId) (n : Node) :
    Keeps V made V (visit.evaluate scope n) (visit'.evaluate scope n) := (hv made scope n).map fun _ h => h

/-! ## Functions -/

theorem prepareParameter (hV : ValueLaws V) (hv : Visits V visit visit') (scope : ScopeId)
    (p : ParameterNode) :
    Keeps V made (fun q => ∀ v, q.default = some v → V v) (prepareParameter visit scope p)
      (prepareParameter visit' scope p) := by
  unfold Eval.prepareParameter
  split
  · exact .pure fun _ h => (nomatch h)
  · refine .bind (evaluate hv scope _) fun value hvalue => ?_
    refine .bind (Q := fun default => ∀ v, default = some v → V v) ?_ fun default hdefault => .pure hdefault
    refine .map (.ofExcept fun _ h => h) fun stored hstored v hv => ?_
    cases hv
    exact hV.adapt? hvalue (ValueType.adaptAs_eq_ok hstored)

theorem makeSignature (hV : ValueLaws V) (hv : Visits V visit visit') (scope : ScopeId)
    {f : ScriptFunction} (hf : f.MadeIn made) :
    Keeps V made (fun r => r.returns = f.returns ∧ ∀ p ∈ r.parameters, ∀ v, p.default = some v → V v)
      (makeSignature visit scope f) (makeSignature visit' scope f) := by
  unfold Eval.makeSignature
  refine (mapM fun p _ => prepareParameter hV hv scope p).bind fun parameters hparameters => ?_
  refine .bind (Q := Any) (.modify fun more s hs => hs.signed ?_) fun _ _ => .pure ⟨rfl, hparameters⟩
  exact ⟨⟨f, hf.append more, rfl⟩, hparameters⟩

/-- The signature of a function declares the result that the function does. -/
theorem prepare (hV : ValueLaws V) (hv : Visits V visit visit') (scope : ScopeId) {f : ScriptFunction}
    (hf : f.MadeIn made) :
    Keeps V made (fun r => r.returns = f.returns ∧ ∀ p ∈ r.parameters, ∀ v, p.default = some v → V v)
      (prepare visit scope f) (prepare visit' scope f) := by
  unfold Eval.prepare
  refine .get_bind fun s hs => ?_
  obtain ⟨more, hs⟩ := hs
  split
  · next signature hsignature =>
    obtain ⟨⟨g, hg, hreturns⟩, hdefaults⟩ := hs.signatures f.id signature hsignature
    rw [hf.append more] at hg
    cases hg
    exact .pure ⟨hreturns, hdefaults⟩
  · split
    · exact .fail _
    · split
      · exact .block
      · refine .bind (.changeThread fun _ h => h) fun _ _ => ?_
        exact (makeSignature hV hv scope hf).guarded fun _ => rfl

theorem declareArguments (hV : ValueLaws V) (scope : ScopeId) (depth : Nat)
    {bound : List (Parameter × Value)} (hbound : ∀ b ∈ bound, V b.2) :
    Keeps V made (fun r => ∀ a ∈ r, V a.2) (declareArguments scope depth bound)
      (declareArguments scope depth bound) := by
  unfold Eval.declareArguments
  refine .mapM fun b hb => ?_
  refine .bind (.ofExcept fun _ h => h) fun x hx => ?_
  have hvalue : V x.value := hV.make (hbound b hb) hx
  exact .bind (changeScopes fun _ _ _ ht hu => ScopeTree.Stocked.defineVariable ht hvalue hu)
    fun _ _ => .pure hvalue

theorem runBody (hV : ValueLaws V) (hv : Visits V visit visit') (scope : ScopeId) (f : ScriptFunction)
    (returns : ValueType) :
    Keeps V made (fun v => V v ∧ returns.Returns v) (runBody visit scope f returns)
      (runBody visit' scope f returns) := by
  unfold Eval.runBody
  refine (evaluate hv scope f.body).bind fun result hresult => ?_
  refine .bind (.ofExcept fun _ h => h) fun v hconclude => ?_
  have hvalue : V v := stocked_of_conclude hV hresult hconclude
  refine .bind (changeThread fun r hr frame hframe => ?_) fun _ _ =>
    .pure ⟨hvalue, returns_of_conclude hconclude⟩
  obtain ⟨_ | ⟨top, rest⟩, _⟩ := r
  · cases hframe
  · rcases List.mem_cons.1 hframe with rfl | hrest
    · exact ⟨(hr top List.mem_cons_self).arguments, fun _ h => by cases h; exact hvalue⟩
    · exact hr frame (List.mem_cons_of_mem _ hrest)

theorem pop : Keeps V made Any (updateThread Thread.pop) (updateThread Thread.pop) := by
  refine ⟨.update (fun frame s t hs ht => ?_) fun _ _ hs _ => hs⟩
  obtain ⟨more, hs⟩ := hs
  refine ⟨more, hs.withThread fun frame hframe => hs.frames frame ?_, trivial⟩
  revert ht
  generalize s.thread = r
  obtain ⟨_ | _, _⟩ := r <;> intro ht <;> cases ht
  exact List.mem_cons_of_mem _ hframe

theorem drop {α : Type} {Q : α → Prop} {x x' : Eval α} (hx : Keeps V made Q x x') :
    Keeps V made Q (x.onBreak Thread.drop) (x'.onBreak Thread.drop) := by
  refine hx.onBreak fun r hr frame hframe => hr frame ?_
  obtain ⟨_ | _, _⟩ := r
  · exact hframe
  · exact List.mem_cons_of_mem _ hframe

/-- A call gives what it says it returns. -/
theorem runFunction (hV : ValueLaws V) (hv : Visits V visit visit') (scope : ScopeId)
    (f : ScriptFunction) {bound : List (Parameter × Value)} (hbound : ∀ b ∈ bound, V b.2)
    (returns : ValueType) :
    Keeps V made (fun v => V v ∧ returns.Returns v) (runFunction visit scope f bound returns)
      (runFunction visit' scope f bound returns) := by
  have hinner (inner : ScopeId) : Keeps V made (fun v => V v ∧ returns.Returns v)
      (runInScope visit inner f bound returns) (runInScope visit' inner f bound returns) := by
    unfold Eval.runInScope
    refine (depth inner).bind fun level _ => ?_
    refine (declareArguments hV inner level hbound).bind fun arguments harguments => ?_
    refine .bind (changeThread fun r hr frame hframe => ?_) fun _ _ =>
      (runBody hV hv inner f returns).drop.thenAlways pop
    rcases List.mem_cons.1 hframe with rfl | hframe
    · exact ⟨harguments, fun _ h => (nomatch h)⟩
    · exact hr frame hframe
  unfold Eval.runFunction
  refine .bind (updateScopes fun _ _ _ _ ht hu => ScopeTree.Stocked.create ht hu) fun inner _ => ?_
  refine .thenAlways (S := Any) (.thenAlways (S := Any) (hinner inner) ?_) ?_
  · exact changeScopes fun _ _ _ ht hu => ScopeTree.Stocked.clearExecuted ht hu
  · exact updateScopes fun _ _ _ _ ht hu => ScopeTree.Stocked.release ht hu

/-! ## Tasks -/

theorem runWork (hV : ValueLaws V) (hv : Visits V visit visit') {work : Work} (hwork : work.Stocked V) :
    Keeps V made V (runWork visit work) (runWork visit' work) := by
  cases work with
  | call scope f bound returns =>
    exact inCall f ((runFunction hV hv scope f (fun b hb => (hwork b hb).1) returns).weaken
      fun _ h => h.1)
  | routine routine =>
    refine .get_bind fun s _ => .onWorld (fun w hw w' hw' => ?_) fun _ v _ _ => hwork v
    rw [Native.state?_mapError] at hw'
    refine ⟨.of_all hwork _, ?_⟩
    rw [← Outcome.reached_of_state? hw', (routine.advances s.thread none [] w).entered]
    exact hw.entered
  | failure code message => exact .fail _

theorem tryJob (hV : ValueLaws V) (hv : Visits V visit visit') {job : Job}
    (hjob : job.work.Stocked V) : Keeps V made Any (tryJob visit job) (tryJob visit' job) := by
  refine ⟨⟨fun outer houter => ?_⟩⟩
  obtain ⟨more, houter⟩ := houter
  obtain ⟨heq, hrun⟩ := (runWork hV hv hjob).ends.ends _ (.self (houter.enterTask job))
  have hleave {rest : List ScriptFunction} {s : State} (hs : s.Stocked V (made ++ more ++ rest))
      {outcome : Except Error Value} (houtcome : ∀ v, outcome = .ok v → V v) :
      ∃ more, (leaveTask outer s job outcome).Stocked V (made ++ more) ∧ Any () :=
    ⟨more ++ rest, by rw [← List.append_assoc]; exact houter.leaveTask hs job houtcome, trivial⟩
  unfold Eval.tryJob
  rw [heq]
  refine ⟨rfl, ?_⟩
  cases ho : Eval.runWork visit job.work (enterTask outer job) <;> rw [ho] at hrun
  case ok value s =>
    obtain ⟨rest, hs, hvalue⟩ := hrun
    exact hleave hs fun _ h => by cases h; exact hvalue
  case error _ s | crashed s =>
    obtain ⟨rest, hs⟩ := hrun
    exact hleave hs fun _ h => by cases h
  case blocked s => exact ⟨more, houter.park _ hjob, trivial⟩
  case exhausted => trivial

theorem spawn (hV : ValueLaws V) (hv : Visits V visit visit') (owner : ScopeId) (label : String)
    (callId : Option CallId) (counted : Bool) {work : Work} (hwork : work.Stocked V) :
    Keeps V made V (spawn visit owner label callId counted work)
      (spawn visit' owner label callId counted work) := by
  unfold Eval.spawn
  refine .bind (changeScopes fun _ _ _ ht hu => ScopeTree.Stocked.beginTask ht hu) fun _ _ => ?_
  refine .bind (.modify fun _ _ hs => hs.pushTask label) fun _ _ => ?_
  refine .bind (Q := Any) (.gets fun _ _ => trivial) fun id _ => ?_
  exact (tryJob hV hv hwork).bind fun _ _ => .pure (hV.task id)

theorem retryParked (hV : ValueLaws V) (hv : Visits V visit visit') :
    Keeps V made Any (retryParked visit) (retryParked visit') := by
  unfold Eval.retryParked
  refine .bind (Q := fun jobs => ∀ job ∈ jobs, job.work.Stocked V) (.gets fun s hs => ?_)
    fun jobs hjobs => ?_
  · obtain ⟨more, hs⟩ := hs
    exact hs.parked
  · refine .bind (.modify fun _ s hs => { hs with parked := fun _ h => nomatch h }) fun _ _ => ?_
    exact .forM fun job hjob => tryJob hV hv (hjobs job hjob)

theorem settle (hV : ValueLaws V) (hv : Visits V visit visit') :
    Keeps V made Any (settle visit) (settle visit') := by
  unfold Eval.settle
  refine .loop (.get_bind fun before _ => (retryParked hV hv).bind fun _ _ => .get_bind fun after _ => ?_)
  split <;> exact .pure fun _ _ => trivial

theorem waking (hV : ValueLaws V) (hv : Visits V visit visit') {α : Type} {Q : α → Prop}
    {x x' : Eval α} (hx : Keeps V made Q x x') :
    Keeps V made Q (waking visit x) (waking visit' x') := by
  have hgates {S : Nat → Prop} (hS : ∀ n, S n) :
      Keeps V made S (Step.gets fun s => s.world.gates.size) (Step.gets fun s => s.world.gates.size) :=
    .gets fun _ _ => hS _
  refine (hgates (S := Any) fun _ => trivial).bind fun before _ => hx.thenAlways (S := Any) ?_
  refine (hgates (S := Any) fun _ => trivial).bind fun after _ => ?_
  split
  · exact .pure trivial
  · exact settle hV hv

theorem join (hV : ValueLaws V) (hv : Visits V visit visit') (id : Nat) :
    Keeps V made V (join visit id) (join visit' id) := by
  have houtcome : Keeps V made (fun r => ∀ v, r = some (.ok v) → V v) (outcome? id) (outcome? id) := by
    refine .gets fun s hs v hv => ?_
    obtain ⟨more, hs⟩ := hs
    obtain ⟨task, htask, hv⟩ := Option.bind_eq_some_iff.1 hv
    unfold State.task? at htask
    split at htask
    · cases htask
    · exact hs.outcomes _ task v htask hv
  unfold Eval.join
  refine houtcome.bind fun r hr => ?_
  cases r with
  | some outcome => exact .ofExcept fun v hv => hr v (hv ▸ rfl)
  | none =>
    refine (settle hV hv).bind fun _ _ => houtcome.bind fun r hr => ?_
    cases r with
    | some outcome => exact .ofExcept fun v hv => hr v (hv ▸ rfl)
    | none => exact .block

end Keeps

/-! ## Calls -/

/-- The functions that a call can pick were made, and the native ones give values that satisfy `V`. -/
structure Known (V : Value → Prop) (made : List ScriptFunction) (c : Callable) : Prop where
  script : ∀ f, .script f ∈ c.members → f.MadeIn made
  native : ∀ n, .native n ∈ c.members → n.Stocked V

theorem Known.of_script {f : ScriptFunction} (hf : f.MadeIn made) : Known V made (.script f) :=
  ⟨fun g hg => by cases List.mem_singleton.1 hg; exact hf, fun n hn => by cases List.mem_singleton.1 hn⟩

theorem Known.append {c : Callable} (h : Known V made c) (more : List ScriptFunction) :
    Known V (made ++ more) c := ⟨fun f hf => (h.script f hf).append more, h.native⟩

theorem Known.of_natives {natives : List Native} (h : ∀ n ∈ natives, n.Stocked V) {c : Callable}
    (hc : Callable.ofCandidates? (natives.map .native) = some c) : Known V made c := by
  have hmembers : c.members = natives.map .native := by
    unfold Callable.ofCandidates? at hc
    split at hc
    · cases hc
    · next hsingle =>
      cases hc
      obtain ⟨n, -, rfl⟩ := List.mem_map.1 (hsingle ▸ List.mem_singleton_self c)
      exact hsingle.symm
    · cases hc
      rfl
  refine ⟨fun f hf => ?_, fun n hn => ?_⟩
  · rw [hmembers] at hf
    obtain ⟨n, -, hn⟩ := List.mem_map.1 hf
    cases hn
  · rw [hmembers] at hn
    obtain ⟨m, hm, heq⟩ := List.mem_map.1 hn
    cases heq
    exact h n hm

theorem Yields.findCallable (hl : Laws V engine engine') (scope : ScopeId) (name : String) :
    Yields V made (fun made r => ∀ c, r = some c → Known V made c)
      (findCallable engine scope name false) (findCallable engine' scope name false) := by
  unfold Eval.findCallable
  rw [hl.natives]
  refine .asks fun more s r hs hr c hc => ?_
  subst hc
  obtain ⟨name, -, hr⟩ := exists_ok_of_bind hr
  obtain ⟨-, -, hr⟩ := ScopeTree.find?_of_get_bind hr
  split at hr
  · next found hfound =>
    cases hr
    obtain ⟨f, rfl, hf⟩ := ScopeTree.Stocked.callable hs.scopes hfound
    exact .of_script hf
  · exact .of_natives (hl.stocked name) (Except.ok.inj hr)

theorem Yields.getCallable (hl : Laws V engine engine') (scope : ScopeId) (name : String) :
    Yields V made (Known V) (getCallable engine scope name false)
      (getCallable engine' scope name false) := by
  unfold Eval.getCallable
  refine (findCallable hl scope name).bind fun more r hr => ?_
  cases r with
  | some c => exact ⟨.pure fun _ hs => hs.imp fun rest h => ⟨h, (hr c rfl).append rest⟩⟩
  | none => exact ⟨.fail fun _ => id⟩

namespace Keeps

theorem invokeScript (hV : ValueLaws V) (hv : Visits V visit visit') (scope : ScopeId)
    {f : ScriptFunction} (hf : f.MadeIn made) {arguments : List Argument}
    (harguments : ∀ a ∈ arguments, V a.value) :
    Keeps V made (fun v => V v ∧ (f.isAsync = false → f.returns.Returns v))
      (invokeScript visit scope f arguments) (invokeScript visit' scope f arguments) := by
  unfold Eval.invokeScript
  refine .bind (inCall f (prepare hV hv scope hf)) fun signature hsignature => ?_
  obtain ⟨hreturns, hdefaults⟩ := hsignature
  refine .bind (inCall f (.ofExcept fun _ h => h)) fun bound hbind => ?_
  have hbound := stocked_of_bindArguments hdefaults harguments hbind
  have hwork : (Work.call scope f bound signature.returns).Stocked V := hbound
  split
  · next hasync =>
    refine (spawn hV hv scope _ _ _ hwork).weaken fun v hv => ⟨hv, fun hsync => ?_⟩
    rw [hasync] at hsync
    cases hsync
  · exact (inCall f (runFunction hV hv scope f (fun b hb => (hbound b hb).1) _)).weaken
      fun v hv => ⟨hv.1, fun _ => hreturns ▸ hv.2⟩

theorem invokeMember (hV : ValueLaws V) (hv : Visits V visit visit') (scope : ScopeId) (name : String)
    {member : Callable} (hscript : ∀ f, member = .script f → f.MadeIn made)
    (hnative : ∀ n, member = .native n → n.Stocked V) {arguments : List Argument}
    (harguments : ∀ a ∈ arguments, V a.value) (span : Span) :
    Keeps V made (fun v => V v ∧ ∀ T, member.returns? = some T → T.Returns v)
      (invokeMember visit scope name member arguments span)
      (invokeMember visit' scope name member arguments span) := by
  unfold Eval.invokeMember
  cases member with
  | native n =>
    refine (invokeNative (hnative n rfl) name arguments span).weaken fun v hv => ⟨hv.1, fun T hT => ?_⟩
    cases hT
    exact hv.2
  | script f =>
    refine (invokeScript hV hv scope (hscript f rfl) harguments).mapErrorWith.weaken
      fun v hv => ⟨hv.1, fun T hT => ?_⟩
    obtain ⟨hsync, rfl⟩ := Callable.returns?_script.1 hT
    exact hv.2 hsync
  | overloads members => exact .failWith _

theorem pick (hl : Laws V engine engine') (name : String) (candidates : List Callable)
    (arguments : List Argument) (index : Option Nat) :
    Keeps V made (fun i => engine.picks? name candidates arguments index = some i)
      (pick engine name candidates arguments index) (pick engine' name candidates arguments index) := by
  unfold Eval.pick
  cases index with
  | none =>
    refine (choose hl name candidates arguments).weaken fun i hi => ?_
    obtain ⟨values, hvalues, hi⟩ := hi
    simp only [Engine.picks?, hvalues, hi, Except.toOption, Option.bind_eq_bind, Option.bind_some]
  | some j =>
    dsimp only
    split
    · exact .pure rfl
    · exact .failWith _

theorem invokeOverloads (hl : Laws V engine engine') (hv : Visits V visit visit') (scope : ScopeId)
    (name : String) {candidates : List Callable}
    (hscript : ∀ f, .script f ∈ candidates → f.MadeIn made)
    (hnative : ∀ n, .native n ∈ candidates → n.Stocked V) {arguments : List Argument}
    (harguments : ∀ a ∈ arguments, V a.value) (index : Option Nat) (span : Span) :
    Keeps V made (fun v => V v ∧ ∃ i member, engine.picks? name candidates arguments index = some i ∧
        candidates[i]? = some member ∧ ∀ T, member.returns? = some T → T.Returns v)
      (invokeOverloads engine visit scope name candidates arguments index span)
      (invokeOverloads engine' visit' scope name candidates arguments index span) := by
  unfold Eval.invokeOverloads
  refine .bind (pick hl name candidates arguments index) fun i hi => ?_
  split
  · next member hmember =>
    have hmem := List.mem_of_getElem? hmember
    exact (invokeMember hl.toValueLaws hv scope name (fun f hf => hscript f (hf ▸ hmem))
      (fun n hn => hnative n (hn ▸ hmem)) harguments span).weaken
      fun v hv => ⟨hv.1, i, member, hi, hmember, hv.2⟩
  · exact .crash

/-- A call gives what the callable that it goes to may return. -/
theorem invoke (hl : Laws V engine engine') (hv : Visits V visit visit') (scope : ScopeId)
    (name : String) {c : Callable} (hc : Known V made c) {arguments : List Argument}
    (harguments : ∀ a ∈ arguments, V a.value) (index : Option Nat) (span : Span) :
    Keeps V made (fun v => V v ∧ engine.Returns name c arguments index v)
      (invoke engine visit scope name c arguments index span)
      (invoke engine' visit' scope name c arguments index span) := by
  have hoverloads (htarget : engine.target? name c arguments index =
      (engine.picks? name c.members arguments index).bind (c.members[·]?)) :
      Keeps V made (fun v => V v ∧ engine.Returns name c arguments index v)
        (Eval.invokeOverloads engine visit scope name c.members arguments index span)
        (Eval.invokeOverloads engine' visit' scope name c.members arguments index span) := by
    refine (invokeOverloads hl hv scope name hc.script hc.native harguments index span).weaken
      fun v hv => ⟨hv.1, ?_⟩
    obtain ⟨-, i, member, hi, hmember, hreturns⟩ := hv
    exact ⟨member, by rw [htarget, hi, Option.bind_some, hmember], hreturns⟩
  cases c with
  | overloads members =>
    unfold Eval.invoke
    exact hoverloads (by simp [Engine.target?, Callable.isOverloaded])
  | script f =>
    cases index with
    | some i => exact hoverloads rfl
    | none =>
      refine (invokeScript hl.toValueLaws hv scope (hc.script f (List.mem_singleton_self _))
        harguments).weaken fun v hv => ⟨hv.1, .script f, rfl, fun T hT => ?_⟩
      obtain ⟨hsync, rfl⟩ := Callable.returns?_script.1 hT
      exact hv.2 hsync
  | native n =>
    cases index with
    | some i => exact hoverloads rfl
    | none =>
      refine (invokeNative (hc.native n (List.mem_singleton_self _)) name arguments span).weaken
        fun v hv => ⟨hv.1, .native n, rfl, fun T hT => ?_⟩
      cases hT
      exact hv.2

theorem underCallId {α : Type} {Q : α → Prop} {x x' : Eval α} (id : CallId)
    (hx : Keeps V made Q x x') : Keeps V made Q (underCallId id x) (underCallId id x') := by
  unfold Eval.underCallId
  refine .bind (Q := Any) (.gets fun _ _ => trivial) fun previous _ => ?_
  exact .bind (.changeThread fun _ h => h) fun _ _ => hx.guarded fun _ => rfl

theorem call (hl : Laws V engine engine') (hv : Visits V visit visit') (scope : ScopeId)
    (name : String) {arguments : List Argument} (harguments : ∀ a ∈ arguments, V a.value)
    (index : Option Nat) (span : Span) :
    Keeps V made V (call engine visit scope name arguments index span)
      (call engine' visit' scope name arguments index span) := by
  unfold Eval.call
  refine .bind (Q := Any) (.gets fun _ _ => trivial) fun depth _ => underCallId _ ?_
  refine (Yields.mapError (Yields.getCallable hl scope name)).bind fun more c hc => ?_
  exact ((invoke hl hv scope name hc harguments index span).weaken fun _ h => h.1).mapError

end Keeps

end Stock

end TreeScript
