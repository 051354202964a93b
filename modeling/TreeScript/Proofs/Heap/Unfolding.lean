import Mathlib.Data.List.Forall2
import Mathlib.Data.Set.Card
import Mathlib.Logic.Relation
import TreeScript.Heap.Basic

/-!
# Unfolding values

A value may be spread over the heap, with objects that several others share. Its `Unfolding` is the finite
tree that is seen from outside: a list unfolds to its elements, an object to the names of its fields with
their values, and everything else to itself; host objects and tasks stand for themselves as references. The
declared types, the constants and the depths of fields are not part of it.

A value that contains no object which contains itself has one unfolding (`Heap.Plain.exists_unfolds`,
`Heap.Plain.unfolds_unique`). An object contains more objects than its fields do, so such values can be
taken apart (`Heap.acyclic_induction`).
-/

namespace TreeScript

/-- What is seen of a value before it is taken apart. -/
inductive Label where
  | none
  | bool (value : Bool)
  | int (value : Int64)
  | float (value : Float)
  | string (value : String)
  | list
  /-- An object, with the names of its fields. -/
  | object (names : List String)
  | host (ref : Nat)
  | task (id : Nat)

/-- A value as a tree. -/
inductive Unfolding where
  | node (label : Label) (components : List Unfolding)

namespace Heap

variable {h : Heap} {a b v w : Value} {u u' : Unfolding} {ref : Nat}

/-- What is seen of a value before it is taken apart. -/
def label (h : Heap) : Value → Label
  | .none => .none
  | .bool b => .bool b
  | .int n => .int n
  | .float x => .float x
  | .string s => .string s
  | .list _ => .list
  | .object ref => .object ((h.entries ref).map (·.1))
  | .host _ ref => .host ref
  | .task id => .task id

/-- The values right inside of a value: the elements of a list, or the values of the fields of an object in
the order of their names. -/
def components (h : Heap) : Value → List Value
  | .list vs => vs
  | .object ref => (h.entries ref).map (·.2)
  | _ => []

/-- A value unfolds to its label and the unfoldings of its components. -/
inductive Unfolds (h : Heap) : Value → Unfolding → Prop
  | node {v : Value} {us : List Unfolding} (hus : List.Forall₂ (Unfolds h) (h.components v) us) :
      Unfolds h v (.node (h.label v) us)

/-! ## Values without cycles -/

/-- One value stands right inside of another. -/
def Component (h : Heap) (w v : Value) : Prop := w ∈ h.components v

/-- One value is another or stands inside of it, however deep. -/
def Contains (h : Heap) (v w : Value) : Prop := Relation.ReflTransGen h.Component w v

/-- A value that contains an object which contains itself. -/
def Cyclic (h : Heap) (v : Value) : Prop :=
  ∃ ref, h.Contains v (.object ref) ∧ Relation.TransGen h.Component (.object ref) (.object ref)

theorem Cyclic.of_component (hw : h.Cyclic w) (hv : h.Component w v) : h.Cyclic v := by
  obtain ⟨ref, href, hcycle⟩ := hw
  exact ⟨ref, href.tail hv, hcycle⟩

/-- The way round the object goes on inside of the value. -/
theorem Cyclic.component (hv : h.Cyclic v) : ∃ w, h.Component w v ∧ h.Cyclic w := by
  obtain ⟨ref, href, hcycle⟩ := hv
  rcases href.cases_tail with rfl | ⟨w, href, hw⟩
  · obtain ⟨w, href, hw⟩ := Relation.TransGen.tail'_iff.1 hcycle
    exact ⟨w, hw, ref, href, hcycle⟩
  · exact ⟨w, hw, ref, href, hcycle⟩

/-- A value that contains no double and no object that contains itself. -/
structure Plain (h : Heap) (v : Value) : Prop where
  noFloat : ∀ x, ¬h.Contains v (.float x)
  noCycle : ∀ ref, h.Contains v (.object ref) →
    ¬Relation.TransGen h.Component (.object ref) (.object ref)

theorem Plain.component (hv : h.Plain v) (hw : h.Component w v) : h.Plain w where
  noFloat x hx := hv.noFloat x (hx.tail hw)
  noCycle ref href := hv.noCycle ref (href.tail hw)

/-- The values of a collection that is closed under components are plain if there is no double among them and
components are always of lower rank. -/
theorem Plain.of_rank {S : Value → Prop} (rank : Value → Nat) (hfloat : ∀ x, ¬S (.float x))
    (hclosed : ∀ v, S v → ∀ w, h.Component w v → S w ∧ rank w < rank v) (hv : S v) : h.Plain v := by
  have hcontains {w : Value} (hw : h.Contains v w) : S w := by
    induction hw using Relation.ReflTransGen.head_induction_on with
    | refl => exact hv
    | head hw _ ih => exact (hclosed _ ih _ hw).1
  constructor
  · intro x hx
    exact hfloat x (hcontains hx)
  · intro ref href hcycle
    have hlower {a b : Value} (hab : Relation.TransGen h.Component a b) (hb : S b) : rank a < rank b := by
      induction hab with
      | single hab => exact (hclosed _ hb _ hab).2
      | tail _ hcb ih =>
        obtain ⟨hc, hlt⟩ := hclosed _ hb _ hcb
        exact Nat.lt_trans (ih hc) hlt
    exact Nat.lt_irrefl _ (hlower hcycle (hcontains href))

/-- The objects that a value contains. -/
def held (h : Heap) (v : Value) : Set Nat :=
  {ref | ref < h.objects.size ∧ h.Contains v (.object ref)}

theorem held_subset_range (h : Heap) (v : Value) : h.held v ⊆ Finset.range h.objects.size := by
  intro ref href
  simpa using href.1

theorem finite_held (h : Heap) (v : Value) : (h.held v).Finite :=
  (Finset.finite_toSet _).subset (h.held_subset_range v)

theorem ncard_held_le (h : Heap) (v : Value) : (h.held v).ncard ≤ h.objects.size := by
  have hle := Set.ncard_le_ncard (h.held_subset_range v) (Finset.finite_toSet _)
  rwa [Set.ncard_coe_finset, Finset.card_range] at hle

theorem held_subset (hw : h.Component w v) : h.held w ⊆ h.held v :=
  fun _ href => ⟨href.1, href.2.tail hw⟩

theorem ncard_held_le_of_component (hw : h.Component w v) : (h.held w).ncard ≤ (h.held v).ncard :=
  Set.ncard_le_ncard (held_subset hw) (h.finite_held v)

theorem lt_size_of_component (hw : h.Component w (.object ref)) : ref < h.objects.size := by
  by_contra hout
  have hfields : h.fields ref = ∅ := by
    rw [fields, Array.getElem?_eq_none (Nat.not_lt.1 hout)]
    rfl
  simp only [Component, components, entries, hfields] at hw
  cases hw

/-- A field contains fewer objects than its object does: not the object itself. -/
theorem ncard_held_lt (hv : ¬h.Cyclic (.object ref)) (hw : h.Component w (.object ref)) :
    (h.held w).ncard < (h.held (.object ref)).ncard := by
  refine Set.ncard_lt_ncard ⟨held_subset hw, fun hsubset => ?_⟩ (h.finite_held _)
  have hself : ref ∈ h.held (.object ref) := ⟨lt_size_of_component hw, .refl⟩
  exact hv ⟨ref, .refl, .tail' (hsubset hself).2 hw⟩

theorem sizeOf_lt_of_component {vs : List Value} (hw : h.Component w (.list vs)) :
    sizeOf w < sizeOf (Value.list vs) := by
  have := List.sizeOf_lt_of_mem (show w ∈ vs from hw)
  rw [Value.list.sizeOf_spec]
  omega

/-- Values without cycles are taken apart: what holds of a value if it holds of its components holds of all of
them. -/
@[elab_as_elim]
theorem acyclic_induction {motive : Value → Prop} (hv : ¬h.Cyclic v)
    (step : ∀ v, ¬h.Cyclic v → (∀ w, h.Component w v → motive w) → motive v) : motive v := by
  -- Elements of a list may contain as many objects as the list does, so the size of the value counts too.
  induction hn : (h.held v).ncard using Nat.strongRecOn generalizing v with
  | ind n ihn =>
    induction hs : sizeOf v using Nat.strongRecOn generalizing v with
    | ind s ihs =>
      subst hn hs
      refine step v hv fun w hw => ?_
      have hacyclic : ¬h.Cyclic w := fun h => hv (h.of_component hw)
      rcases Nat.lt_or_eq_of_le (ncard_held_le_of_component hw) with hlt | heq
      · exact ihn _ hlt hacyclic rfl
      · cases v with
        | list vs => exact ihs _ (sizeOf_lt_of_component hw) hacyclic heq rfl
        | object ref => exact absurd heq (Nat.ne_of_lt (ncard_held_lt hv hw))
        | _ => cases hw

theorem Plain.acyclic (hv : h.Plain v) : ¬h.Cyclic v :=
  fun ⟨ref, href, hcycle⟩ => hv.noCycle ref href hcycle

@[elab_as_elim]
theorem Plain.induction {motive : Value → Prop} (hv : h.Plain v)
    (step : ∀ v, h.Plain v → (∀ w, h.Component w v → motive w) → motive v) : motive v :=
  acyclic_induction (motive := fun v => h.Plain v → motive v) hv.acyclic
    (fun v _ ih hv => step v hv fun w hw => ih w hw (hv.component hw)) hv

/-! ## Unfoldings -/

theorem exists_unfolds_all {vs : List Value} (hvs : ∀ v ∈ vs, ∃ u, h.Unfolds v u) :
    ∃ us, List.Forall₂ h.Unfolds vs us := by
  induction vs with
  | nil => exact ⟨[], .nil⟩
  | cons v vs ih =>
    obtain ⟨⟨u, hu⟩, hrest⟩ := List.forall_mem_cons.1 hvs
    obtain ⟨us, hus⟩ := ih hrest
    exact ⟨u :: us, .cons hu hus⟩

theorem Plain.exists_unfolds (hv : h.Plain v) : ∃ u, h.Unfolds v u := by
  refine hv.induction fun v _ ih => ?_
  obtain ⟨us, hus⟩ := exists_unfolds_all ih
  exact ⟨_, .node hus⟩

theorem unfolds_all_unique {vs : List Value} (hvs : ∀ v ∈ vs, ∀ u u', h.Unfolds v u → h.Unfolds v u' → u = u')
    {us us' : List Unfolding} (hus : List.Forall₂ h.Unfolds vs us) (hus' : List.Forall₂ h.Unfolds vs us') :
    us = us' := by
  induction hus generalizing us' with
  | nil =>
    cases hus'
    rfl
  | cons hu _ ih =>
    obtain ⟨hv, hrest⟩ := List.forall_mem_cons.1 hvs
    cases hus' with
    | cons hu' hus' => rw [hv _ _ hu hu', ih hrest hus']

theorem Plain.unfolds_unique (hv : h.Plain v) : ∀ u u', h.Unfolds v u → h.Unfolds v u' → u = u' := by
  refine hv.induction fun v _ ih => ?_
  rintro _ _ ⟨hus⟩ ⟨hus'⟩
  rw [unfolds_all_unique ih hus hus']

/-- Two values have the same unfolding. -/
def Same (h : Heap) (v w : Value) : Prop := ∃ u, h.Unfolds v u ∧ h.Unfolds w u

theorem Plain.same_refl (hv : h.Plain v) : h.Same v v := by
  obtain ⟨u, hu⟩ := hv.exists_unfolds
  exact ⟨u, hu, hu⟩

theorem Same.symm (hs : h.Same v w) : h.Same w v := by
  obtain ⟨u, hv, hw⟩ := hs
  exact ⟨u, hw, hv⟩

theorem Plain.same_trans (hv : h.Plain v) (ha : h.Same a v) (hb : h.Same v b) : h.Same a b := by
  obtain ⟨u, hau, hvu⟩ := ha
  obtain ⟨u', hvu', hbu'⟩ := hb
  cases hv.unfolds_unique _ _ hvu hvu'
  exact ⟨u, hau, hbu'⟩

theorem forall₂_same_iff {vs ws : List Value} :
    List.Forall₂ h.Same vs ws ↔ ∃ us, List.Forall₂ h.Unfolds vs us ∧ List.Forall₂ h.Unfolds ws us := by
  constructor
  · intro hs
    induction hs with
    | nil => exact ⟨[], .nil, .nil⟩
    | cons hs _ ih =>
      obtain ⟨u, hv, hw⟩ := hs
      obtain ⟨us, hvs, hws⟩ := ih
      exact ⟨u :: us, .cons hv hvs, .cons hw hws⟩
  · rintro ⟨us, hvs, hws⟩
    induction hvs generalizing ws with
    | nil =>
      cases hws
      exact .nil
    | cons hv _ ih =>
      cases hws with
      | cons hw hws => exact .cons ⟨_, hv, hw⟩ (ih hws)

/-- Values with the same unfolding are seen as the same, and so are their components. -/
theorem same_iff :
    h.Same v w ↔ h.label v = h.label w ∧ List.Forall₂ h.Same (h.components v) (h.components w) := by
  rw [forall₂_same_iff]
  constructor
  · rintro ⟨u, hv, hw⟩
    cases hv with
    | node hvs =>
      generalize hlabel : h.label v = label at hw
      cases hw with
      | node hws => exact ⟨rfl, _, hvs, hws⟩
  · rintro ⟨hlabel, us, hvs, hws⟩
    refine ⟨_, .node hvs, ?_⟩
    rw [hlabel]
    exact .node hws

end Heap

end TreeScript
