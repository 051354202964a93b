import TreeScript.Eval.Visit
import TreeScript.Proofs.Step

/-!
# Expressions in related scopes

Two states lie beside each other if they differ in their scopes only, which are related, and no job
is parked in them. The functions that evaluate an expression read and change the scopes through a
handful of operations. So they end in the same way from states beside each other if those operations
do (`ScopeRelation`), and if the visits of the nodes below, the preparation and the runs of the
script's functions do.

* `Keeps ρ η x x'`: from scopes related by `ρ`, the computations `x` and `x'` end in the same way,
  and in scopes related by `ρ` where they return; the weaker `η` holds where they do not.
* `Keeps.invokeNative`, `Keeps.readPath`, `Keeps.writePath`: native functions and paths. They keep
  `ρ` also where they fail, which is needed where a failure is passed over.
-/

namespace TreeScript

open Step (Alike)

/-- Two results of an operation on scopes: the same error, or related scopes. -/
inductive SameResult (ρ : ScopeTree → ScopeTree → Prop) :
    Except Error ScopeTree → Except Error ScopeTree → Prop
  | ok {t u : ScopeTree} (h : ρ t u) : SameResult ρ (.ok t) (.ok u)
  | error {e : Error} : SameResult ρ (.error e) (.error e)

/-- The operations that expressions apply to scopes do the same on related scopes, in which all
functions are `fine`. -/
structure ScopeRelation (fine : ScriptFunction → Prop) (ρ : ScopeTree → ScopeTree → Prop) :
    Prop where
  depth : ∀ {t u}, ρ t u → ∀ id, (u.get id).map (·.depth) = (t.get id).map (·.depth)
  findVariable : ∀ {t u}, ρ t u → ∀ id name localOnly,
    u.findVariable id name localOnly = t.findVariable id name localOnly
  callable : ∀ {t u}, ρ t u → ∀ id name, u.callable? id name false = t.callable? id name false
  defineVariable : ∀ {t u}, ρ t u → ∀ id v,
    SameResult ρ (t.defineVariable id v) (u.defineVariable id v)
  assignVariable : ∀ {t u}, ρ t u → ∀ id name v,
    SameResult ρ (t.assignVariable id name v) (u.assignVariable id name v)
  defineFunction : ∀ {t u}, ρ t u → ∀ id f, fine f →
    SameResult ρ (t.defineFunction id f) (u.defineFunction id f)
  defineImplementation : ∀ {t u}, ρ t u → ∀ id i,
    (∀ name f, i.functions.find? name = some f → fine f) →
    SameResult ρ (t.defineImplementation id i) (u.defineImplementation id i)
  found : ∀ {t u}, ρ t u → ∀ {id name c}, t.callable? id name false = some c →
    ∃ f, c = .script f ∧ fine f

/-- Two states with related scopes that are the same otherwise, without parked jobs. -/
inductive Beside (ρ : ScopeTree → ScopeTree → Prop) (s : State) : State → Prop
  | intro (u : ScopeTree) (scopes : ρ s.scopes u) (parked : s.parked = []) :
      Beside ρ s { s with scopes := u }

theorem Beside.mono {ρ η : ScopeTree → ScopeTree → Prop} (hη : ∀ t u, ρ t u → η t u)
    {s s' : State} : Beside ρ s s' → Beside η s s'
  | ⟨u, h, hp⟩ => ⟨u, hη _ _ h, hp⟩

/-- From states with scopes related by `ρ`, the computations end in the same way. -/
def Keeps (ρ η : ScopeTree → ScopeTree → Prop) {α : Type} (x x' : Eval α) : Prop :=
  Alike (Beside ρ) x x' (fun _ => Beside ρ) (Beside η)

/-- The computation keeps scopes related, also where it fails. -/
abbrev Steady (ρ : ScopeTree → ScopeTree → Prop) {α : Type} (x : Eval α) : Prop := Keeps ρ ρ x x

namespace Keeps

variable {ρ η : ScopeTree → ScopeTree → Prop} {α β : Type} {x x' : Eval α}

/-! ## How computations are built -/

theorem exits (h : Keeps ρ ρ x x') (hη : ∀ t u, ρ t u → η t u) : Keeps ρ η x x' :=
  h.mono (fun _ _ => id) (fun _ _ _ => id) fun _ _ => Beside.mono hη

theorem pure (a : α) : Keeps ρ η (pure a) (pure a) := Alike.pure fun _ _ h => h

theorem fail (hη : ∀ t u, ρ t u → η t u) (e : Error) :
    Keeps ρ η (Step.fail e : Eval α) (Step.fail e) := Alike.fail fun _ _ => Beside.mono hη

theorem crash (hη : ∀ t u, ρ t u → η t u) : Keeps ρ η (Step.crash : Eval α) Step.crash :=
  Alike.crash fun _ _ => Beside.mono hη

theorem block (hη : ∀ t u, ρ t u → η t u) : Keeps ρ η (Step.block : Eval α) Step.block :=
  Alike.block fun _ _ => Beside.mono hη

theorem ofExcept (hη : ∀ t u, ρ t u → η t u) (r : Except Error α) :
    Keeps ρ η (Step.ofExcept r) (Step.ofExcept r) :=
  Alike.ofExcept (fun _ _ _ _ h => h) fun _ _ => Beside.mono hη

theorem ofOption (hη : ∀ t u, ρ t u → η t u) (r : Option α) :
    Keeps ρ η (Step.ofOption r) (Step.ofOption r) :=
  Alike.ofOption (fun _ _ _ _ h => h) fun _ _ h => h.mono hη

theorem bind {f f' : α → Eval β} (hx : Keeps ρ η x x') (hf : ∀ a, Keeps ρ η (f a) (f' a)) :
    Keeps ρ η (x >>= f) (x' >>= f') := Alike.bind hx hf

theorem map {f : α → β} (hx : Keeps ρ η x x') : Keeps ρ η (f <$> x) (f <$> x') :=
  Alike.map hx fun _ _ _ h => h

/-- What is read of the states does not depend on the scopes. -/
theorem get_bind {k k' : State → Eval α} (hk : ∀ s t, k' { s with scopes := t } = k' s)
    (h : ∀ s, Keeps ρ η (k s) (k' s)) : Keeps ρ η (Step.get >>= k) (Step.get >>= k') := by
  rintro s _ ⟨u, hρ, hp⟩
  show (k s s).Alike _ _ (k' { s with scopes := u } { s with scopes := u })
  rw [hk]
  exact h s s _ ⟨u, hρ, hp⟩

theorem gets {f : State → α} (hf : ∀ s t, f { s with scopes := t } = f s) :
    Keeps ρ η (Step.gets f) (Step.gets f) :=
  Alike.gets fun s _ ⟨u, hρ, hp⟩ => ⟨hf s u, u, hρ, hp⟩

theorem modify {f : State → State} (hf : ∀ s t, f { s with scopes := t } = { f s with scopes := t })
    (hscopes : ∀ s, (f s).scopes = s.scopes) (hparked : ∀ s, s.parked = [] → (f s).parked = []) :
    Keeps ρ η (Step.modify f) (Step.modify f) := by
  refine Alike.modify ?_
  rintro s _ ⟨u, hρ, hp⟩
  rw [hf s u]
  exact ⟨u, by rw [hscopes]; exact hρ, hparked s hp⟩

theorem mapErrorWith {f : State → Error → Option Error} (hf : ∀ s t e, f { s with scopes := t } e = f s e)
    (hx : Keeps ρ η x x') : Keeps ρ η (x.mapErrorWith f) (x'.mapErrorWith f) :=
  Alike.mapErrorWith hx fun s _ e ⟨u, _, _⟩ => hf s u e

theorem mapError {f : Error → Error} (hx : Keeps ρ η x x') :
    Keeps ρ η (x.mapError f) (x'.mapError f) := Alike.mapError hx

theorem mapM {l : List β} {f f' : β → Eval α} (h : ∀ b ∈ l, Keeps ρ η (f b) (f' b)) :
    Keeps ρ η (l.mapM f) (l.mapM f') := Alike.mapM h

theorem foldlM {l : List β} {f f' : α → β → Eval α} (h : ∀ a, ∀ b ∈ l, Keeps ρ η (f a b) (f' a b))
    (a : α) : Keeps ρ η (l.foldlM f a) (l.foldlM f' a) := by
  have := Alike.foldlM (R := Beside ρ) (E := Beside η) (P := fun _ => True) (a := a) trivial
    fun a _ b hb => (h a b hb).weaken fun _ _ _ hs => ⟨hs, trivial⟩
  exact this.weaken fun _ _ _ hs => hs.1

/-- A computation that keeps the scopes related also where it fails can be tried. -/
theorem attempt (hx : Keeps ρ ρ x x') :
    Keeps ρ ρ (x.attempt : Eval (Except Error α)) x'.attempt :=
  (Alike.attempt hx).weaken fun r s s' h => by
    cases r with
    | ok a => exact h
    | error e => exact h

/-- Tidying up that keeps the scopes related after a return, and those of an early end. -/
theorem thenAlways {tidy tidy' : Eval β} (hx : Keeps ρ η x x') (hok : Keeps ρ η tidy tidy')
    (herror : Keeps η η tidy tidy') : Keeps ρ η (x.thenAlways tidy) (x'.thenAlways tidy') :=
  Alike.thenAlways hx (fun _ => hok) herror

theorem changeThread (f : Thread → Thread) : Keeps ρ η (Eval.changeThread f) (Eval.changeThread f) :=
  modify (fun _ _ => rfl) (fun _ => rfl) fun _ h => h

theorem onBreak {f : Thread → Thread} {Q : α → State → State → Prop}
    (hx : Alike (Beside ρ) x x' Q (Beside η)) :
    Alike (Beside ρ) (Eval.onBreak x f) (Eval.onBreak x' f) Q (Beside η) :=
  hx.whenCrashed fun _ _ ⟨u, h, hp⟩ => ⟨u, h, hp⟩

theorem guarded {f : Thread → Thread} (hx : Keeps ρ η x x') :
    Keeps ρ η (Eval.guarded x f) (Eval.guarded x' f) :=
  thenAlways (onBreak hx) (changeThread f) (changeThread f)

theorem updateThread (hη : ∀ t u, ρ t u → η t u) (f : Thread → Except Error (α × Thread)) :
    Keeps ρ η (Eval.updateThread f) (Eval.updateThread f) := by
  refine Alike.update ?_
  rintro s _ ⟨u, hρ, hp⟩
  simp only
  cases f s.thread with
  | error e => exact .inl ⟨e, rfl, rfl, u, hη _ _ hρ, hp⟩
  | ok r => exact .inr ⟨r.1, r.2, r.2, rfl, rfl, u, hρ, hp⟩

theorem onWorld (hη : ∀ t u, ρ t u → η t u) (x : Step World Error α) :
    Keeps ρ η (Eval.onWorld x) (Eval.onWorld x) :=
  Alike.zoom (fun _ _ ⟨_, _, _⟩ => rfl) (fun _ _ _ _ ⟨u, hρ, hp⟩ => ⟨u, hρ, hp⟩)
    fun _ _ _ ⟨u, hρ, hp⟩ => ⟨u, hη _ _ hρ, hp⟩

/-- A question to the scopes that has one answer. -/
theorem askScopes {f : ScopeTree → Except Error α} (hη : ∀ t u, ρ t u → η t u)
    (hf : ∀ t u, ρ t u → f u = f t) : Keeps ρ η (Eval.askScopes f) (Eval.askScopes f) := by
  rintro s _ ⟨u, hρ, hp⟩
  unfold Eval.askScopes
  rw [hf _ _ hρ]
  exact ofExcept hη _ s _ ⟨u, hρ, hp⟩

theorem changeScopes {f f' : ScopeTree → Except Error ScopeTree} (hη : ∀ t u, ρ t u → η t u)
    (hf : ∀ t u, ρ t u → SameResult ρ (f t) (f' u)) :
    Keeps ρ η (Eval.changeScopes f) (Eval.changeScopes f') := by
  unfold Keeps Eval.changeScopes Eval.updateScopes
  refine Alike.update ?_
  rintro s _ ⟨u, hρ, hp⟩
  simp only
  have h := hf _ _ hρ
  cases hft : f s.scopes <;> cases hfu : f' u <;> rw [hft, hfu] at h <;> cases h
  case error.error e => exact .inl ⟨_, rfl, rfl, u, hη _ _ hρ, hp⟩
  case ok.ok t u' h => exact .inr ⟨(), t, u', rfl, rfl, u', h, hp⟩

/-! ## Native functions and fields -/

theorem invokeNative {callee : String} {n : Native} {arguments : List Argument} {span : Span} :
    Steady ρ (Eval.invokeNative callee n arguments span) := by
  have hρ : ∀ t u, ρ t u → ρ t u := fun _ _ => id
  unfold Eval.invokeNative
  refine (ofExcept hρ _).mapError.bind fun values => ?_
  refine (ofExcept hρ _).bind fun (receiver, values) => ?_
  exact get_bind (fun _ _ => rfl) fun s => onWorld hρ _

theorem choose {engine : Engine} {callee : String} {candidates : List Callable}
    {arguments : List Argument} : Steady ρ (Eval.choose engine callee candidates arguments) := by
  have hρ : ∀ t u, ρ t u → ρ t u := fun _ _ => id
  unfold Eval.choose
  refine (ofExcept hρ _).bind fun values => ?_
  exact (ofExcept hρ _).mapErrorWith fun _ _ _ => rfl

theorem invokeNatives {engine : Engine} {callee : String} {natives : List Native}
    {arguments : List Argument} {span : Span} :
    Steady ρ (Eval.invokeNatives engine callee natives arguments span) := by
  unfold Eval.invokeNatives
  split
  · exact invokeNative
  · refine choose.bind fun index => ?_
    split
    · exact invokeNative
    · exact crash fun _ _ => id

theorem tryAccessor {engine : Engine} {object : Value} {accessor : String} :
    Steady ρ (Eval.tryAccessor engine object accessor) := by
  unfold Eval.tryAccessor
  split
  · exact pure _
  · refine invokeNatives.attempt.bind fun r => ?_
    cases r with
    | ok value => exact pure _
    | error e =>
      dsimp only
      split
      · split
        · exact pure _
        · exact fail (fun _ _ => id) _
      · exact pure _

theorem readThrough {engine : Engine} {typeName : String} {ref : Nat} {field : String}
    {accessors : List String} : Steady ρ (Eval.readThrough engine typeName ref field accessors) := by
  induction accessors with
  | nil => exact gets fun _ _ => rfl
  | cons accessor rest ih =>
    unfold Eval.readThrough
    refine tryAccessor.bind fun access => ?_
    cases access with
    | silent => exact ih
    | missing => exact pure _
    | found value => exact pure _

theorem readField {engine : Engine} {typeName : String} {ref : Nat} {field : String} :
    Steady ρ (Eval.readField engine typeName ref field) := readThrough

theorem withHeap (h : Heap) : Steady ρ (Step.modify fun s => s.withHeap h) :=
  modify (fun _ _ => rfl) (fun _ => rfl) fun _ hp => hp

theorem storeField {engine : Engine} {typeName : String} {ref : Nat} {field : String}
    {value : Value} : Steady ρ (Eval.storeField engine typeName ref field value) := by
  unfold Eval.storeField
  dsimp only
  split
  · refine get_bind (fun _ _ => rfl) fun s => ?_
    split
    · exact (withHeap _).bind fun _ => pure _
    · exact pure _
  · refine invokeNatives.attempt.bind fun r => ?_
    cases r with
    | ok value => exact pure _
    | error e => exact pure _

theorem writeField {engine : Engine} {typeName : String} {ref : Nat} {field : String}
    {value : Value} : Steady ρ (Eval.writeField engine typeName ref field value) := by
  have hρ : ∀ t u, ρ t u → ρ t u := fun _ _ => id
  -- The field is read again, whatever became of the write.
  have hread {e : Error} {check : Option Value → Eval Unit} (hnone : check none = Step.fail e)
      (hsome : ∀ current, check (some current) = do
        let s ← Step.get
        if ← Step.ofOption (s.heap.equal? current value) then Pure.pure () else Step.fail e) :
      Steady ρ (Eval.readField engine typeName ref field >>= check) := by
    refine readField.bind fun read => ?_
    cases read with
    | none =>
      rw [hnone]
      exact fail hρ _
    | some current =>
      rw [hsome]
      refine get_bind (fun _ _ => rfl) fun s => (ofOption hρ _).bind fun b => ?_
      cases b with
      | true => exact pure _
      | false => exact fail hρ _
  unfold Eval.writeField
  refine storeField.bind fun r => ?_
  cases r with
  | ok _ => exact hread rfl fun _ => rfl
  | error reason =>
    dsimp only
    split
    · exact hread rfl fun _ => rfl
    · exact (fail hρ _).bind fun _ => hread rfl fun _ => rfl

/-! ## Paths -/

theorem child? {engine : Engine} {value : Value} {name : String} :
    Steady ρ (Eval.child? engine value name) := by
  unfold Eval.child?
  split
  · exact gets fun _ _ => rfl
  · exact readField
  · exact pure _

theorem walk {engine : Engine} {index : Nat} {segments : List Segment} {value : Value} :
    Steady ρ (Eval.walk engine index segments value) := by
  induction segments generalizing index value with
  | nil => exact pure _
  | cons segment rest ih =>
    unfold Eval.walk
    refine child?.bind fun next => ?_
    cases next with
    | some next => exact ih
    | none => exact pure _

theorem pathNotFound {engine : Engine} {p : Path} {index : Nat} :
    Steady ρ (Eval.pathNotFound engine p index : Eval α) := fail (fun _ _ => id) _

section Scopes

variable {fine : ScriptFunction → Prop} (hρ : ScopeRelation fine ρ)

include hρ

theorem findVariable {scope : ScopeId} {name : String} :
    Steady ρ (Eval.askScopes fun t => t.findVariable scope name false) :=
  askScopes (fun _ _ => id) fun _ _ h => hρ.findVariable h scope name false

theorem readAlong {engine : Engine} {scope : ScopeId} {p : Path} :
    Steady ρ (Eval.readAlong engine scope p) := by
  unfold Eval.readAlong
  split
  · exact pathNotFound
  · refine (findVariable hρ).bind fun v => ?_
    cases v with
    | none =>
      dsimp only
      split
      · exact pure _
      · exact pathNotFound
    | some v =>
      refine walk.bind fun w => ?_
      cases w with
      | reached value => exact pure _
      | stopped index =>
        dsimp only
        split
        · exact pure _
        · exact pathNotFound

omit hρ in
theorem writeLast {engine : Engine} {p : Path} {field : Segment} {holder value : Value} :
    Steady ρ (Eval.writeLast engine p field holder value) := by
  unfold Eval.writeLast
  dsimp only
  split
  · refine get_bind (fun _ _ => rfl) fun s => (ofExcept (fun _ _ => id) _).bind fun h => ?_
    cases h with
    | some h => exact withHeap h
    | none => exact pathNotFound
  · exact writeField
  · split
    · exact pure _
    · exact pathNotFound
  · exact pathNotFound

theorem writeAlong {engine : Engine} {scope : ScopeId} {p : Path} {value : Value} :
    Steady ρ (Eval.writeAlong engine scope p value) := by
  unfold Eval.writeAlong
  split
  · exact pathNotFound
  · exact changeScopes (fun _ _ => id) fun _ _ h => hρ.assignVariable h scope _ value
  · refine (findVariable hρ).bind fun v => ?_
    cases v with
    | none => exact pathNotFound
    | some v =>
      refine walk.bind fun w => ?_
      cases w with
      | reached holder => exact writeLast
      | stopped index =>
        dsimp only
        split
        · exact pure _
        · exact pathNotFound

theorem readPath {engine : Engine} {scope : ScopeId} {text : String} :
    Steady ρ (Eval.readPath engine scope text) :=
  (ofExcept (fun _ _ => id) _).bind fun _ => readAlong hρ

theorem writePath {engine : Engine} {scope : ScopeId} {text : String} {value : Value} :
    Steady ρ (Eval.writePath engine scope text value) :=
  (ofExcept (fun _ _ => id) _).bind fun _ => writeAlong hρ

end Scopes

end Keeps

end TreeScript
