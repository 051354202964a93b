import Mathlib.Logic.Relation
import TreeScript.Proofs.Path.Resolution
import TreeScript.Proofs.Scope.Nearest

/-!
# Slots

A value is stored in a slot: the variable of a scope or the field of an object. `State.put` replaces
what one slot holds and leaves all else as it is (`State.slot?_put`), and names lead to at most one slot
(`State.LeadsTo.unique`).

Names still lead to a slot after it was written, unless the way to it passes through the slot itself.
That is so if no object is passed twice (`State.resolve?_put`), as in a heap without cycles
(`Heap.Acyclic.nodup_passed`).
-/

namespace TreeScript

/-- A place for a value. -/
inductive Slot where
  /-- A variable of a scope. -/
  | binding (scope : ScopeId) (name : String)
  /-- A field of an object of a script. -/
  | field (ref : Nat) (name : String)
deriving DecidableEq, Repr

/-- Whether a value is no object, or one that was made before another. -/
def Value.isOlder (ref : Nat) : Value → Bool
  | object other => other < ref
  | _ => true

/-! ## Fields -/

namespace Heap

variable {h : Heap} {ref : Nat} {name : String} {x y : Variable} {v w : Value}
  {names front : List String}

/-- Puts a variable in the place of a field. -/
def store (h : Heap) (ref : Nat) (name : String) (y : Variable) : Heap :=
  h.setFields ref ((h.fields ref).insert name y)

theorem lt_size_of_field (hx : (h.fields ref).find? name = some x) : ref < h.objects.size := by
  by_contra hout
  rw [fields, Array.getElem?_eq_none (Nat.not_lt.1 hout)] at hx
  cases hx

theorem fields_store (hx : (h.fields ref).find? name = some x) (y : Variable) (r : Nat) :
    (h.store ref name y).fields r =
      if r = ref then (h.fields ref).insert name y else h.fields r := by
  unfold store setFields
  show (Array.setIfInBounds _ _ _)[r]?.getD ∅ = _
  rw [Array.getElem?_setIfInBounds]
  by_cases hr : ref = r
  · rw [if_pos hr, if_pos (lt_size_of_field hx), if_pos hr.symm]
    rfl
  · rw [if_neg hr, if_neg (Ne.symm hr)]
    rfl

theorem field?_store (hx : (h.fields ref).find? name = some x) (y : Variable) (r : Nat)
    (n : String) :
    (h.store ref name y).field? r n =
      if r = ref ∧ n = name then some y.value else h.field? r n := by
  unfold field?
  rw [fields_store hx]
  by_cases hr : r = ref
  · subst hr
    rw [if_pos rfl, Table.find?_insert]
    by_cases hname : n = name <;> simp [hname]
  · simp [hr]

/-- The objects that are asked for a field when names are followed. -/
def passed (h : Heap) : Value → List String → List Nat
  | .object ref, name :: rest => ref :: (h.field? ref name).elim [] (h.passed · rest)
  | _, _ => []

@[simp] theorem passed_nil (h : Heap) (v : Value) : h.passed v [] = [] := by
  cases v <;> rfl

theorem passed_append (hw : h.follow? v front = some w) (back : List String) :
    h.passed v (front ++ back) = h.passed v front ++ h.passed w back := by
  induction front generalizing v with
  | nil =>
    cases hw
    rw [passed_nil]
    rfl
  | cons name front ih =>
    rw [follow?_cons] at hw
    obtain ⟨u, hu, hrest⟩ := Option.bind_eq_some_iff.1 hw
    cases v with
    | object ref =>
      have hfield : h.field? ref name = some u := hu
      simp only [List.cons_append, passed, hfield, Option.elim_some, ih hrest]
    | _ => cases hu

/-- Names lead to the same value if the object that was written is not passed. -/
theorem follow?_store (hx : (h.fields ref).find? name = some x) (y : Variable)
    (hpassed : ref ∉ h.passed v names) :
    (h.store ref name y).follow? v names = h.follow? v names := by
  induction names generalizing v with
  | nil => rfl
  | cons n names ih =>
    rw [follow?_cons, follow?_cons]
    cases v with
    | object r =>
      obtain ⟨hne, hrest⟩ := not_or.1 (mt List.mem_cons.2 hpassed)
      have hmember : (h.store ref name y).member? (.object r) n = h.member? (.object r) n := by
        show (h.store ref name y).field? r n = h.field? r n
        rw [field?_store hx, if_neg fun hr => hne hr.1.symm]
      rw [hmember]
      cases hu : h.member? (.object r) n with
      | none => rfl
      | some u =>
        have hfield : h.field? r n = some u := hu
        rw [hfield] at hrest
        exact ih hrest
    | _ => rfl

/-! ## Cycles -/

/-- A field of one object holds the other. -/
def Holds (h : Heap) (a b : Nat) : Prop := ∃ name, h.field? a name = some (.object b)

/-- No object leads back to itself. -/
def Acyclic (h : Heap) : Prop := ∀ a, ¬Relation.TransGen h.Holds a a

theorem reflTransGen_of_mem_passed {a r : Nat} (hr : r ∈ h.passed (.object a) names) :
    Relation.ReflTransGen h.Holds a r := by
  induction names generalizing a with
  | nil => cases hr
  | cons name names ih =>
    rcases List.mem_cons.1 hr with rfl | hr
    · exact .refl
    · cases hfield : h.field? a name with
      | none =>
        rw [hfield] at hr
        cases hr
      | some u =>
        rw [hfield] at hr
        cases u with
        | object b => exact .head ⟨name, hfield⟩ (ih hr)
        | _ => cases names <;> cases hr

/-- Where there are no cycles, no object is passed twice. -/
theorem Acyclic.nodup_passed (hh : h.Acyclic) (v : Value) (names : List String) :
    (h.passed v names).Nodup := by
  induction names generalizing v with
  | nil => cases v <;> exact .nil
  | cons name names ih =>
    cases v with
    | object a =>
      cases hfield : h.field? a name with
      | none => simp [passed, hfield]
      | some u =>
        simp only [passed, hfield, Option.elim_some]
        refine List.nodup_cons.2 ⟨fun hmem => ?_, ih u⟩
        cases u with
        | object b => exact hh a (.head' ⟨name, hfield⟩ (reflTransGen_of_mem_passed hmem))
        | _ => cases names <;> cases hmem
    | _ => exact .nil

/-- Every object that a field holds is older than the object of the field. -/
def Layered (h : Heap) : Prop :=
  ∀ a < h.objects.size, ∀ x ∈ (h.fields a).values, x.value.isOlder a = true

instance (h : Heap) : Decidable h.Layered := Nat.decidableBallLT _ _

theorem Layered.lt (hh : h.Layered) {a b : Nat} (hab : h.Holds a b) : b < a := by
  obtain ⟨name, hname⟩ := hab
  obtain ⟨x, hx, hvalue⟩ := Option.map_eq_some_iff.1 hname
  have holder := hh a (lt_size_of_field hx) x (List.mem_map_of_mem (Table.mem_entries.2 hx))
  rw [hvalue] at holder
  exact of_decide_eq_true holder

theorem Layered.acyclic (hh : h.Layered) : h.Acyclic := by
  intro a ha
  have hlt {b c : Nat} (hbc : Relation.TransGen h.Holds b c) : c < b := by
    induction hbc with
    | single hbc => exact hh.lt hbc
    | tail _ hbc ih => exact Nat.lt_trans (hh.lt hbc) ih
  exact Nat.lt_irrefl a (hlt ha)

end Heap

/-! ## States -/

namespace State

variable {s : State} {scope : ScopeId} {names front : List String} {slot : Slot} {x : Variable}

/-- What a slot holds. -/
def slot? (s : State) : Slot → Option Variable
  | .binding scope name => (s.scopes.find? scope).bind (·.locals.find? name)
  | .field ref name => (s.heap.fields ref).find? name

/-- Puts a variable in the place of the one that a slot holds. -/
def put (s : State) (slot : Slot) (y : Variable) : State :=
  match slot with
  | .binding scope name => { s with scopes := s.scopes.store scope name y }
  | .field ref name => s.withHeap (s.heap.store ref name y)

/-- One slot holds something else, and the others what they held. -/
theorem slot?_put (hx : s.slot? slot = some x) (y : Variable) (other : Slot) :
    (s.put slot y).slot? other = if other = slot then some y else s.slot? other := by
  cases slot with
  | binding holder name =>
    cases other with
    | field ref n => rfl
    | binding id n =>
      obtain ⟨c, hc, hx⟩ := Option.bind_eq_some_iff.1 hx
      show ((s.scopes.store holder name y).find? id).bind (·.locals.find? n) = _
      rw [ScopeTree.store, ScopeTree.find?_modify]
      by_cases hid : holder = id
      · subst hid
        simp [Scope.store, slot?, hc]
      · simp [slot?, hid, Ne.symm hid]
  | field ref name =>
    cases other with
    | binding id n => rfl
    | field r n =>
      show ((s.heap.store ref name y).fields r).find? n = _
      rw [Heap.fields_store hx]
      by_cases hr : r = ref
      · subst hr
        simp [slot?]
      · simp [slot?, hr]

/-- The slot that names lead to from a scope. -/
inductive LeadsTo (s : State) (scope : ScopeId) : List String → Slot → Prop
  | binding {name : String} {holder : ScopeId} {x : Variable}
      (h : s.scopes.nearestVariable? scope name false = some (holder, x)) :
      LeadsTo s scope [name] (.binding holder name)
  | field {front : List String} {ref : Nat} {name : String}
      (h : s.resolve? scope front = some (.object ref)) :
      LeadsTo s scope (front ++ [name]) (.field ref name)

/-- Names lead to one slot. -/
theorem LeadsTo.unique {names' : List String} {slot' : Slot} (h : s.LeadsTo scope names slot)
    (h' : s.LeadsTo scope names' slot') (hnames : names = names') : slot = slot' := by
  have hfront {name n : String} {front : List String} {v : Value}
      (hv : s.resolve? scope front = some v) : [name] ≠ front ++ [n] := by
    intro hsplit
    have hcut : [] ++ [name] = front ++ [n] := hsplit
    obtain ⟨rfl, -⟩ := List.append_inj' hcut rfl
    cases hv
  cases h with
  | binding hx =>
    cases h' with
    | binding hx' =>
      cases hnames
      cases hx.symm.trans hx'
      rfl
    | field hv' => exact absurd hnames (hfront hv')
  | field hv =>
    cases h' with
    | binding hx' => exact absurd hnames.symm (hfront hv)
    | field hv' =>
      obtain ⟨rfl, hname⟩ := List.append_inj' hnames rfl
      cases hname
      cases hv.symm.trans hv'
      rfl

theorem LeadsTo.name_mem {ref : Nat} {name : String} (h : s.LeadsTo scope names (.field ref name)) :
    name ∈ names := by
  cases h
  exact List.mem_append_right _ (List.mem_singleton_self name)

/-- The objects that are asked for a field when names are followed from a scope. -/
def passed (s : State) (scope : ScopeId) : List String → List Nat
  | [] => []
  | first :: rest => (s.scopes.nearestVariable? scope first false).elim [] fun found =>
    s.heap.passed found.2.value rest

theorem nodup_passed (hh : s.heap.Acyclic) (scope : ScopeId)
    (names : List String) : (s.passed scope names).Nodup := by
  cases names with
  | nil => exact .nil
  | cons first rest =>
    rw [passed]
    cases s.scopes.nearestVariable? scope first false with
    | none => exact .nil
    | some found => exact hh.nodup_passed found.2.value rest

/-- The value of a slot that was written is found where the slot was, if no object is passed twice
on the way. -/
theorem resolve?_put (hslot : s.LeadsTo scope names slot) (hx : s.slot? slot = some x)
    (hpassed : (s.passed scope names).Nodup) (y : Variable) :
    (s.put slot y).resolve? scope names = some y.value := by
  cases hslot with
  | binding hnearest =>
    obtain ⟨c, hc, hlocal⟩ := Option.bind_eq_some_iff.1 hx
    show ((s.scopes.store _ _ y).nearestVariable? scope _ false).bind _ = _
    rw [ScopeTree.nearestVariable?_store hc hlocal, hnearest]
    simp
  | @field front ref name hfront =>
    have hne : front ≠ [] := ne_nil_of_resolve? hfront
    obtain ⟨first, rest, rfl⟩ := List.exists_cons_of_ne_nil hne
    obtain ⟨⟨holder, z⟩, hz, hrest⟩ := Option.bind_eq_some_iff.1 hfront
    have hway : s.passed scope (first :: rest ++ [name]) = s.heap.passed z.value rest ++ [ref] := by
      simp only [List.cons_append, passed, hz, Option.elim_some, Heap.passed_append hrest]
      cases hfield : s.heap.field? ref name <;> simp [Heap.passed, hfield]
    -- The object that is written is asked last, so the way to it is as it was.
    have hfresh : ref ∉ s.heap.passed z.value rest := by
      rw [hway] at hpassed
      exact fun hmem => (List.nodup_append.1 hpassed).2.2 ref hmem ref (List.mem_singleton_self ref) rfl
    have hsame : (s.put (.field ref name) y).resolve? scope (first :: rest) = some (.object ref) := by
      show ((s.scopes.nearestVariable? scope first false).bind fun found =>
        (s.heap.store ref name y).follow? found.2.value rest) = _
      rw [hz]
      exact (Heap.follow?_store hx y hfresh).trans hrest
    rw [resolve?_append _ _ hne, hsame]
    show (s.heap.store ref name y).follow? (.object ref) [name] = _
    rw [Heap.follow?_cons]
    show ((s.heap.store ref name y).field? ref name).bind _ = _
    rw [Heap.field?_store hx, if_pos ⟨rfl, rfl⟩]
    rfl

end State

end TreeScript
