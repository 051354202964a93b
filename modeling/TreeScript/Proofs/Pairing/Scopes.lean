import TreeScript.Proofs.Pairing.Laws
import TreeScript.Proofs.Scope.Paired
import TreeScript.Proofs.Scope.Places

/-!
# Laws of paired scopes

A pairing has scopes of the form `F` and `I` if its relation on trees is `ScopeTree.Paired F` with
an invariant `I` of the first tree, which may depend on the view and looks at nothing but the places
of the scopes. Then all laws about scopes hold, but for the one about new scopes. For that there are
two ways:

* `ScopeForm.steady`: pending tasks are counted alike on both sides, and the view never changes.
* `ScopeForm.placed`: the view gives the place of every scope. A scope that was entered and left
  again has left all places as they were.
-/

namespace TreeScript

namespace Pairing

variable {P : Pairing} {F : Facets} {I : P.View → ScopeTree → Prop}

/-- The scopes of a pairing are related by the facets `F` and the invariant `I`. -/
structure ScopeForm (P : Pairing) (F : Facets) (I : P.View → ScopeTree → Prop) : Prop where
  lawful : F.Lawful
  functions : F.functions = P.functions
  scopes : ∀ {v t t'}, P.scopes v t t' ↔ t.Paired F t' ∧ I v t
  same : ∀ {v t u}, I v t → t.SamePlaces u → I v u
  jumps : ∀ {v id n e e'}, P.allowed v id n → F.executed id e e' →
    ∀ m ∈ n.descendants, m.jump?.isSome → e'.contains m.id = e.contains m.id

namespace ScopeForm

variable (h : P.ScopeForm F I)

include h

/-- An operation that takes paired trees to paired trees and leaves the places alone. -/
theorem results {v : P.View} {t t' : ScopeTree} {r r' : Except Error ScopeTree}
    (ht : P.scopes v t t') (hr : Results (ScopeTree.Paired F) Eq r r')
    (hsame : ∀ u, r = .ok u → t.SamePlaces u) : Results (P.scopes v) Eq r r' :=
  hr.imp fun u _ hu hp => h.scopes.2 ⟨hp, h.same (h.scopes.1 ht).2 (hsame u hu)⟩

theorem skipsRest {v : P.View} {t t' : ScopeTree} {id : ScopeId} {n : Node} (ht : P.scopes v t t')
    (hn : P.allowed v id n) (jumped : Bool) : t'.skipsRest id n jumped = t.skipsRest id n jumped := by
  have hget := (h.scopes.1 ht).1.get id
  unfold ScopeTree.skipsRest
  generalize t.get id = r at hget
  generalize t'.get id = r' at hget
  cases hget with
  | error he => rw [he]
  | @ok s s' hs =>
    refine congrArg Except.ok (Bool.eq_iff_iff.2 ?_)
    rw [List.any_eq_true, List.any_eq_true]
    refine exists_congr fun m => and_congr_right fun hm => ?_
    have hjump := h.jumps hn hs.executed m hm
    cases hm : m.jump? with
    | none => rfl
    | some jump => rw [hjump (by rw [hm]; rfl)]

/-- The laws about scopes, with the one about new scopes to be given. -/
theorem laws
    (hcreate : ∀ {v t t'}, P.scopes v t t' → ∀ scope,
      Results (fun r r' => r.1 = r'.1 ∧ ∃ w, P.Entered v scope r.1 w r.2 r'.2) Eq (t.create scope)
        (t'.create scope)) : P.ScopeLaws where
  depth ht := (h.scopes.1 ht).1.depth
  findVariable ht := (h.scopes.1 ht).1.findVariable
  callable {_ t t'} ht id name := by
    have hc := (h.scopes.1 ht).1.callable? id name
    rw [h.functions] at hc
    generalize t.callable? id name false = c at hc
    generalize t'.callable? id name false = c' at hc
    cases hc with
    | none => exact .inl ⟨rfl, rfl⟩
    | some hc =>
      obtain ⟨hf⟩ := hc
      exact .inr ⟨_, _, rfl, rfl, hf⟩
  skipsRest ht hn := h.skipsRest ht hn
  defineVariable ht id _ hx := h.results ht ((h.scopes.1 ht).1.defineVariable h.lawful id hx)
    fun _ => ScopeTree.samePlaces_of_defineVariable
  assignVariable ht id name value := h.results ht
    ((h.scopes.1 ht).1.assignVariable h.lawful id name value)
    fun _ => ScopeTree.samePlaces_of_assignVariable
  defineFunction ht id f hf := h.results ht
    ((h.scopes.1 ht).1.defineFunction id (h.functions ▸ hf))
    fun _ => ScopeTree.samePlaces_of_defineFunction
  defineImplementation ht id i hi := h.results ht
    ((h.scopes.1 ht).1.defineImplementation id (h.functions ▸ hi))
    fun _ => ScopeTree.samePlaces_of_defineImplementation
  clearExecuted ht id _ _ hn := h.results ht ((h.scopes.1 ht).1.clearExecuted h.lawful id hn)
    fun _ => ScopeTree.samePlaces_of_clearExecuted
  markExecuted ht id node := h.results ht ((h.scopes.1 ht).1.markExecuted h.lawful id node)
    fun _ => ScopeTree.samePlaces_of_markExecuted
  create := hcreate

/-- The laws where pending tasks are counted alike. -/
theorem steady (hP : ∀ id a b, F.pending id a b ↔ b = a)
    (hcreate : ∀ {v t scope inner u}, I v t → t.create scope = .ok (inner, u) → I v u)
    (hrelease : ∀ {v t inner r u}, I v t → F.low ≤ inner → t.release inner = .ok (r, u) → I v u)
    (hinner : ∀ v scope inner, inner ≠ ScopeTree.root → P.Inner v scope v inner) : P.ScopeLaws := by
  refine h.laws fun {v t t'} ht scope => ?_
  obtain ⟨hp, hI⟩ := h.scopes.1 ht
  refine (hp.create h.lawful scope).imp fun made _ hc hmade => ?_
  obtain ⟨inner, u⟩ := made
  have hinnerId : inner = t.nextId := by
    obtain ⟨s, -, hc⟩ := ScopeTree.find?_of_get_bind hc
    cases hc
    rfl
  have hroot : inner ≠ ScopeTree.root := hinnerId ▸ Nat.ne_of_gt hp.base
  have hlow : F.low ≤ inner := hinnerId ▸ hp.low
  refine ⟨hmade.1, v, h.scopes.2 ⟨hmade.2, hcreate hI hc⟩, hinner v scope inner hroot,
    fun x x' hx => ?_⟩
  obtain ⟨hxp, hxI⟩ := h.scopes.1 hx
  have hrel := hxp.release h.lawful hP inner
  cases hr : x.release inner with
  | error e =>
    rw [hr] at hrel
    generalize x'.release inner = r' at hrel
    cases hrel with
    | error he => exact .inr ⟨e, rfl, by rw [he], hx⟩
  | ok released =>
    obtain ⟨r, y⟩ := released
    rw [hr] at hrel
    generalize hr' : x'.release inner = o at hrel
    cases hrel with
    | @ok _ released' hrel =>
      obtain ⟨r', y'⟩ := released'
      obtain ⟨rfl, hy⟩ : r = r' ∧ y.Paired F y' := hrel
      exact .inl ⟨r, y, y', rfl, rfl, h.scopes.2 ⟨hy, hrelease hxI hlow hr⟩⟩

end ScopeForm

/-- The laws where the view gives the place of every scope. -/
theorem ScopeForm.placed {place : P.View → ScopeId → Option Scope.Place}
    (h : P.ScopeForm F fun v t => t.Placed (place v))
    (hplace : ∀ v scope inner depth, F.low ≤ inner →
      ∃ w, place w = ScopeTree.adding (place v) scope inner depth)
    (hzero : ∀ {id b}, F.low ≤ id → F.pending id 0 b → b = 0)
    (hinner : ∀ v scope w inner, (∃ p, place w inner = some p) → P.Inner v scope w inner) :
    P.ScopeLaws := by
  refine h.laws fun {v t t'} ht scope => ?_
  obtain ⟨hp, hI⟩ := h.scopes.1 ht
  refine (hp.create h.lawful scope).imp fun made _ hc hmade => ?_
  obtain ⟨inner, u⟩ := made
  obtain ⟨rfl, hnew, ⟨p, hparent⟩, depth, hu⟩ := hI.create hc
  obtain ⟨w, hw⟩ := hplace v scope t.nextId depth hp.low
  have hat : place w t.nextId = some ⟨some scope, depth, ∅, 0, false⟩ := by
    rw [hw, ScopeTree.adding, if_pos rfl]
  have hne : scope ≠ t.nextId := Nat.ne_of_lt (hI.bound hparent)
  refine ⟨hmade.1, w, h.scopes.2 ⟨hmade.2, hw ▸ hu⟩, hinner v scope w _ ⟨_, hat⟩,
    fun x x' hx => .inl ?_⟩
  -- The new scope is a leaf on both sides when it is left.
  obtain ⟨hxp, hxI⟩ := h.scopes.1 hx
  obtain ⟨s, hs, hsp⟩ := hxI.find? hat
  have hid := hxp.scopes t.nextId
  rw [hs] at hid
  cases hs' : x'.find? t.nextId with
  | none =>
    rw [hs'] at hid
    cases hid
  | some s' =>
    rw [hs'] at hid
    cases hid with
    | some hss =>
      have hroot : t.nextId ≠ ScopeTree.root := Nat.ne_of_gt hp.base
      have hchildren : s.children = ∅ := congrArg Scope.Place.children hsp
      have hpending : s.pending = 0 := congrArg Scope.Place.pending hsp
      have hpending' : s'.pending = 0 := hzero hp.low (hpending ▸ hss.pending)
      have hlt : t.nextId < x.nextId := hxI.bound hat
      refine ⟨.removed, _, _, ScopeTree.release_of_leaf hs hroot hlt hchildren hpending,
        ScopeTree.release_of_leaf hs' hroot (hxp.next ▸ hlt) (hss.children.trans hchildren)
          hpending', h.scopes.2 ⟨hxp.detach h.lawful hs hss, ?_⟩⟩
      exact ScopeTree.Placed.detach (hw ▸ hxI) hne hnew
        (fun hq hc => Nat.lt_irrefl _ (hI.child hq hc)) hs

end Pairing

end TreeScript
