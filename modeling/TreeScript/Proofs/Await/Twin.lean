import TreeScript.Proofs.Store

/-!
# A function and its synchronous twin

`f.synced` is the function that the same declaration without `async` makes. To compare a run in which
the function with the id `T` is asynchronous with one in which it is not, the scopes of the two runs
are paired up to this: functions are equal, or the second is the twin of the first (`Twin`). Brought
to one side by `syncedAt`, such scopes are equal (`ScopeTree.Paired.syncedAt_eq`).

The signature of a function is shown in errors, and with it whether the function is asynchronous.
Errors that differ in nothing else but the shown signature and the place `Resemble` each other.
-/

namespace TreeScript

/-! ## Twins -/

/-- The declaration without `async`. -/
def Node.synced (n : Node) : Node :=
  { n with
    kind := match n.kind with
      | .function name _ parameters returns body => .function name false parameters returns body
      | kind => kind }

theorem Node.children_synced (n : Node) : n.synced.children = n.children := by
  unfold Node.children Node.synced
  cases n.kind <;> rfl

/-- Both declarations hold the same nodes, but for themselves. -/
theorem Node.ids_synced (n : Node) :
    n.synced.descendants.map (·.id) = n.descendants.map (·.id) := by
  rw [descendants_eq, descendants_eq n, children_synced]
  rfl

/-- The function that the same declaration without `async` makes. -/
def ScriptFunction.synced (f : ScriptFunction) : ScriptFunction :=
  { f with isAsync := false, declaration := f.declaration.synced }

/-- The function, or its twin if it has the id `T`. -/
def ScriptFunction.syncedAt (T : Nat) (f : ScriptFunction) : ScriptFunction :=
  if f.id = T then f.synced else f

/-- The callable, with a twin in place of the function `T`. -/
def Callable.syncedAt (T : Nat) : Callable → Callable
  | .script f => .script (f.syncedAt T)
  | c => c

/-- The implementation, with a twin in place of the function `T`. -/
def Implementation.syncedAt (T : Nat) (i : Implementation) : Implementation :=
  { i with functions := i.functions.map fun _ f => f.syncedAt T }

/-- The scope, with a twin in place of the function `T`. -/
def Scope.syncedAt (T : Nat) (s : Scope) : Scope :=
  { s with
    functions := s.functions.map fun _ c => c.syncedAt T
    implementations := s.implementations.map fun _ i => i.syncedAt T }

/-- The scopes, with a twin in place of the function `T`. -/
def ScopeTree.syncedAt (T : Nat) (t : ScopeTree) : ScopeTree :=
  { t with scopes := t.scopes.map fun _ s => s.syncedAt T }

/-- The state, with a twin bound in place of the function `T`. -/
def State.syncedAt (T : Nat) (s : State) : State := { s with scopes := s.scopes.syncedAt T }

/-- The functions are equal, or the second is the twin of the first, which has the id `T`. -/
def ScriptFunction.Twin (T : Nat) (f f' : ScriptFunction) : Prop :=
  f' = f ∨ f.id = T ∧ f' = f.synced

namespace ScriptFunction

variable {T : Nat} {f f' : ScriptFunction}

theorem twin_syncedAt (T : Nat) (f : ScriptFunction) : f.Twin T (f.syncedAt T) := by
  unfold syncedAt
  split
  · next h => exact .inr ⟨h, rfl⟩
  · exact .inl rfl

theorem resembles_synced (f : ScriptFunction) : f.Resembles f.synced where
  id := rfl
  qualifiedName := rfl
  parameters := rfl
  returns := rfl
  depth := rfl
  body := rfl
  markers := f.declaration.ids_synced

theorem Twin.resembles (h : f.Twin T f') : f.Resembles f' := by
  rcases h with rfl | ⟨-, rfl⟩
  · exact .refl _
  · exact f.resembles_synced

theorem Twin.implementation (h : f.Twin T f') : f'.implementation = f.implementation := by
  rcases h with rfl | ⟨-, rfl⟩ <;> rfl

theorem Twin.sync (h : f.Twin T f') (hf : f.isAsync = false) : f'.isAsync = false := by
  rcases h with rfl | ⟨-, rfl⟩
  · exact hf
  · rfl

theorem synced_synced (f : ScriptFunction) : f.synced.synced = f.synced := by
  have h (n : Node) : n.synced.synced = n.synced := by
    unfold Node.synced
    cases n.kind <;> rfl
  unfold synced
  rw [h]

theorem Twin.syncedAt_eq (h : f.Twin T f') : f'.syncedAt T = f.syncedAt T := by
  rcases h with rfl | ⟨hid, rfl⟩
  · rfl
  · unfold syncedAt
    rw [if_pos hid, if_pos (show f.synced.id = T from hid), synced_synced]

end ScriptFunction

/-! ## Scopes -/

namespace ScopeTree

variable {T : Nat} {t t' : ScopeTree} {F : Facets}

theorem find?_syncedAt (T : Nat) (t : ScopeTree) (id : ScopeId) :
    (t.syncedAt T).find? id = (t.find? id).map (·.syncedAt T) := Table.find?_map ..

/-- Scopes that are paired up to twins are equal once the twins are in place. -/
theorem Paired.syncedAt_eq (h : t.Paired F t') (hF : ∀ f f', F.functions f f' → f.Twin T f')
    (hexecuted : ∀ id e e', F.executed id e e' → e' = e)
    (hpending : ∀ id a b, F.pending id a b → b = a) : t'.syncedAt T = t.syncedAt T := by
  refine ScopeTree.ext_find? h.next fun id => ?_
  have hid := h.scopes id
  rw [find?_syncedAt, find?_syncedAt]
  generalize t.find? id = a at hid
  generalize t'.find? id = a' at hid
  cases hid with
  | none => rfl
  | @some s s' hs =>
    have hfunctions := Table.map_eq_of_rel (Callable.syncedAt T) (fun c c' hc => by
      obtain ⟨hf⟩ := hc
      exact congrArg Callable.script (hF _ _ hf).syncedAt_eq) hs.functions
    have himplementations := Table.map_eq_of_rel (Implementation.syncedAt T) (fun i i' hi => by
      have hmembers := Table.map_eq_of_rel (ScriptFunction.syncedAt T)
        (fun _ _ hf => (hF _ _ hf).syncedAt_eq) hi.members
      rw [Implementation.syncedAt, hmembers, hi.name, hi.depth]
      rfl) hs.implementations
    simp only [Option.map_some, Scope.syncedAt, hfunctions, himplementations, hs.parent, hs.depth,
      hs.children, hs.marked, hs.locals, hexecuted _ _ _ hs.executed, hpending _ _ _ hs.pending]

end ScopeTree

/-- Scopes of two runs that have twins bound, of which the first counts `extra` more tasks as pending in
the scope `K`. -/
def Facets.twins (T : Nat) (K : ScopeId) (extra : Nat) : Facets where
  low := K + 1
  locals _ _ := True
  functions := ScriptFunction.Twin T
  executed _ e e' := e' = e
  pending id a b := a = b + if id = K then extra else 0

theorem Facets.lawful_twins (T : Nat) (K : ScopeId) (extra : Nat) : (twins T K extra).Lawful := by
  refine .of_eq (fun _ _ => trivial) Iff.rfl (fun id hid => ?_) fun h => h.resembles.depth
  show 0 = 0 + if id = K then extra else 0
  rw [if_neg (Nat.ne_of_gt hid)]

theorem Facets.pending_twins (T : Nat) (K id : ScopeId) (a b : Nat) :
    (twins T K 0).pending id a b ↔ b = a := by
  show (a = b + if id = K then 0 else 0) ↔ b = a
  rw [ite_self, Nat.add_zero, eq_comm]

/-- Tasks are counted in the scope `K` of the first run. -/
theorem ScopeTree.Paired.recount {T : Nat} {K : ScopeId} {extra extra' : Nat} {t t' : ScopeTree}
    {g : Nat → Nat} (h : t.Paired (.twins T K extra) t') (hg : ∀ b, g (b + extra) = b + extra') :
    (t.modify K fun c => { c with pending := g c.pending }).Paired (.twins T K extra') t' := by
  refine ⟨h.next, h.low, h.base, fun c hc => ?_, fun id => ?_⟩
  · rw [find?_modify] at hc
    split at hc
    · obtain ⟨q, hq, rfl⟩ := Option.map_eq_some_iff.1 hc
      exact h.orphan q hq
    · exact h.orphan c hc
  · have hid := h.scopes id
    rw [find?_modify]
    generalize t.find? id = a at hid
    generalize t'.find? id = a' at hid
    cases hid with
    | none => split <;> exact .none
    | @some c c' hc =>
      have hpending : c.pending = c'.pending + if id = K then extra else 0 := hc.pending
      split
      · next heq =>
        subst heq
        rw [if_pos rfl] at hpending
        refine .some { hc with pending := ?_ }
        show g c.pending = c'.pending + if K = K then extra' else 0
        rw [hpending, hg, if_pos rfl]
      · next hne =>
        rw [if_neg (Ne.symm hne)] at hpending
        refine .some { hc with pending := ?_ }
        show c.pending = c'.pending + if id = K then extra' else 0
        rw [if_neg (Ne.symm hne), hpending]

/-- The scopes of a sound state are paired with themselves with a twin in place. -/
theorem State.Sound.paired_syncedAt {F : Facets} {T : Nat} {s : State} (h : s.Sound)
    (hlow : F.low ≤ s.scopes.nextId) (hlocals : ∀ id l, F.locals id l)
    (hF : ∀ f, F.functions f (f.syncedAt T)) (hexecuted : ∀ id e, F.executed id e e)
    (hpending : ∀ id n, F.pending id n n) : s.scopes.Paired F (s.scopes.syncedAt T) := by
  obtain ⟨root, hroot, hparent, -⟩ := h.tidy.wellFormed.root
  refine ⟨rfl, hlow, h.tidy.wellFormed.bound _ _ hroot, fun c hc => ?_, fun id => ?_⟩
  · rw [hroot] at hc
    cases hc
    exact hparent
  · rw [ScopeTree.find?_syncedAt]
    cases hc : s.scopes.find? id with
    | none => exact .none
    | some c =>
      refine .some ⟨rfl, rfl, rfl, rfl, hpending _ _, rfl, hlocals _ _, fun name => ?_, fun name => ?_,
        hexecuted _ _⟩
      · unfold Scope.syncedAt
        rw [Table.find?_map]
        cases hf : c.functions.find? name with
        | none => exact .none
        | some f =>
          obtain ⟨g, rfl⟩ := h.scripts id c hc name f hf
          exact .some (.script (hF g))
      · unfold Scope.syncedAt
        rw [Table.find?_map]
        cases c.implementations.find? name with
        | none => exact .none
        | some i =>
          refine .some ⟨rfl, rfl, fun member => ?_⟩
          unfold Implementation.syncedAt
          rw [Table.find?_map]
          cases i.functions.find? member with
          | none => exact .none
          | some f => exact .some (hF f)

/-! ## Errors -/

/-- Texts that are equal, or of which the first is marked as that of an asynchronous function. -/
def Unprefixed (text text' : String) : Prop := text' = text ∨ text = "async " ++ text'

theorem ScriptFunction.Twin.signatureText {T : Nat} {f f' : ScriptFunction} (h : f.Twin T f')
    (heap : Heap) (prepared : Option Signature) :
    Option.Rel Unprefixed (f.signatureText? heap prepared) (f'.signatureText? heap prepared) := by
  have hwith (returns : ValueType) (texts : List String) :
      Unprefixed (f.signatureWith returns texts) (f'.signatureWith returns texts) := by
    rcases h with rfl | ⟨-, rfl⟩
    · exact .inl rfl
    · unfold ScriptFunction.signatureWith
      cases f.isAsync with
      | false => exact .inl rfl
      | true =>
        right
        simp only [String.append_assoc]
        rfl
  unfold ScriptFunction.signatureText?
  cases prepared with
  | none =>
    rw [h.resembles.returns, h.resembles.parameters]
    exact .some (hwith _ _)
  | some s => exact rel_map (rel_self fun _ _ => rfl) fun _ _ heq => heq ▸ hwith _ _

/-- Errors with the same cause in the same callee, whose signatures are equal but for `async`. -/
structure Error.Resembles (e e' : Error) : Prop where
  cause : e'.cause = e.cause
  callee : Option.Rel (fun i i' => i'.name = i.name ∧ Unprefixed i.signature i'.signature)
    e.invocable e'.invocable

namespace Error.Resembles

variable {e e' : Error}

theorem refl (e : Error) : e.Resembles e :=
  ⟨rfl, rel_self fun _ _ => ⟨rfl, .inl rfl⟩⟩

theorem located (h : e.Resembles e') (span span' : Span) :
    (e.located span).Resembles (e'.located span') := ⟨h.cause, h.callee⟩

theorem isSome_invocable (h : e.Resembles e') : e'.invocable.isSome = e.invocable.isSome := by
  obtain ⟨-, h⟩ := h
  generalize e.invocable = i at h ⊢
  generalize e'.invocable = i' at h ⊢
  cases h <;> rfl

theorem within {text text' : String} (h : e.Resembles e') (ht : Unprefixed text text')
    (name : String) : (e.within name text).Resembles (e'.within name text') :=
  ⟨h.cause, .some ⟨rfl, ht⟩⟩

theorem inside {text text' : String} (h : e.Resembles e') (ht : Unprefixed text text')
    (name : String) : (e.inside name text).Resembles (e'.inside name text') := by
  unfold Error.inside
  rw [h.isSome_invocable]
  split
  · exact h
  · exact h.within ht name

end Error.Resembles

/-- The laws about errors where functions are twins. -/
theorem Pairing.ErrorLaws.of_twins {P : Pairing} {T : Nat} (herrors : P.errors = Error.Resembles)
    (htexts : P.texts = Unprefixed) (hfunctions : ∀ {f f'}, P.functions f f' → f.Twin T f') :
    P.ErrorLaws where
  refl e := herrors ▸ .refl e
  located h span := by
    rw [herrors] at h ⊢
    exact h.located span span
  inside h ht name := by
    rw [herrors] at h ⊢
    rw [htexts] at ht
    exact h.inside ht name
  within ht name := by
    rw [herrors]
    rw [htexts] at ht
    exact (Error.Resembles.refl _).within ht name
  text hf s := by
    rw [htexts]
    unfold State.functionSignature?
    rw [(hfunctions hf).resembles.id]
    exact (hfunctions hf).signatureText _ _

end TreeScript
