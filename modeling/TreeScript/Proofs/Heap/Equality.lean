import TreeScript.Heap.Equality
import TreeScript.Proofs.Heap.Unfolding

/-!
# Equality is sameness of unfoldings

Comparing two values without doubles and cycles ends, and says whether they have the same unfolding
(`Heap.decides_equal?`). The comparison takes an object to be equal to itself without looking at its fields. A
comparison that does look at them, `Heap.equalFully?`, gives the same answers.

The argument has two layers. `Heap.RightBelow` says that a comparison of objects is right as long as they
contain fewer objects than a bound; then values are compared rightly up to the same bound
(`Heap.RightBelow.decides`), and objects up to the next one (`Heap.RightBelow.decides_fields`).
-/

namespace TreeScript

/-- An answer was found and says whether a statement holds. -/
def Decides (answer : Option Bool) (p : Prop) : Prop := ∃ b, answer = some b ∧ (b = true ↔ p)

namespace Decides

variable {answer answer' : Option Bool} {p q : Prop}

theorem yes (hp : p) : Decides (some true) p := ⟨true, rfl, by simpa using hp⟩

theorem no (hp : ¬p) : Decides (some false) p := ⟨false, rfl, by simpa using hp⟩

theorem congr (ha : Decides answer p) (hpq : p ↔ q) : Decides answer q := by
  obtain ⟨b, rfl, hb⟩ := ha
  exact ⟨b, rfl, hb.trans hpq⟩

theorem eq_true_iff (ha : Decides answer p) : answer = some true ↔ p := by
  obtain ⟨b, rfl, hb⟩ := ha
  simpa using hb

theorem unique (ha : Decides answer p) (ha' : Decides answer' p) : answer = answer' := by
  obtain ⟨b, rfl, hb⟩ := ha
  obtain ⟨b', rfl, hb'⟩ := ha'
  rw [Bool.eq_iff_iff.2 (hb.trans hb'.symm)]

theorem andThen {rest : Unit → Option Bool} (ha : Decides answer p) (hrest : p → Decides (rest ()) q) :
    Decides (Value.andThen answer rest) (p ∧ q) := by
  obtain ⟨b, rfl, hb⟩ := ha
  cases b with
  | true =>
    have hp : p := hb.1 rfl
    exact (hrest hp).congr (by simp [hp])
  | false => exact no fun hpq => absurd (hb.2 hpq.1) (by simp)

end Decides

/-! ## Elements and fields -/

namespace Value

variable {objectEqual? : Nat → Nat → Option Bool} {S : Value → Value → Prop}

theorem equalAllWith_decides {as bs : List Value} (hlength : as.length = bs.length)
    (hall : ∀ a ∈ as, ∀ b ∈ bs, Decides (a.equalWith objectEqual? b) (S a b)) :
    Decides (equalAllWith objectEqual? as bs) (List.Forall₂ S as bs) := by
  induction as generalizing bs with
  | nil =>
    cases bs with
    | nil => exact .yes .nil
    | cons b bs => cases hlength
  | cons a as ih =>
    cases bs with
    | nil => cases hlength
    | cons b bs =>
      have hfirst : Decides (a.equalWith objectEqual? b) (S a b) := hall a (by simp) b (by simp)
      have hrest : Decides (equalAllWith objectEqual? as bs) (List.Forall₂ S as bs) := by
        refine ih (by simpa using hlength) fun a' ha' b' hb' => ?_
        exact hall a' (by simp [ha']) b' (by simp [hb'])
      rw [equalAllWith]
      exact (hfirst.andThen fun _ => hrest).congr List.forall₂_cons.symm

theorem equalEntriesWith_decides {as bs : List (String × Value)} (hlength : as.length = bs.length)
    (hall : ∀ a ∈ as, ∀ b ∈ bs, Decides (a.2.equalWith objectEqual? b.2) (S a.2 b.2)) :
    Decides (equalEntriesWith objectEqual? as bs)
      (as.map (·.1) = bs.map (·.1) ∧ List.Forall₂ S (as.map (·.2)) (bs.map (·.2))) := by
  induction as generalizing bs with
  | nil =>
    cases bs with
    | nil => exact .yes ⟨rfl, .nil⟩
    | cons b bs => cases hlength
  | cons a as ih =>
    cases bs with
    | nil => cases hlength
    | cons b bs =>
      obtain ⟨m, v⟩ := a
      obtain ⟨n, w⟩ := b
      rw [equalEntriesWith]
      by_cases hname : m = n
      · subst hname
        have hfirst : Decides (v.equalWith objectEqual? w) (S v w) := hall (m, v) (by simp) (m, w) (by simp)
        have htail : ∀ a' ∈ as, ∀ b' ∈ bs, Decides (a'.2.equalWith objectEqual? b'.2) (S a'.2 b'.2) :=
          fun a' ha' b' hb' => hall a' (by simp [ha']) b' (by simp [hb'])
        have hrest := ih (by simpa using hlength) htail
        rw [if_pos rfl]
        refine (hfirst.andThen fun _ => hrest).congr ?_
        simp only [List.map_cons, List.cons.injEq, true_and, List.forall₂_cons]
        exact and_left_comm
      · rw [if_neg hname]
        exact .no (by simp [hname])

end Value

/-! ## Values and objects -/

namespace Heap

variable {h : Heap} {a b c : Value} {objectEqual? : Nat → Nat → Option Bool} {depth : Nat}

/-- A comparison of objects is right about objects that contain fewer than `depth` objects. -/
def RightBelow (h : Heap) (objectEqual? : Nat → Nat → Option Bool) (depth : Nat) : Prop :=
  ∀ a b, h.Plain (.object a) → h.Plain (.object b) → (h.held (.object a)).ncard < depth →
    Decides (objectEqual? a b) (h.Same (.object a) (.object b))

theorem decides_of_label_ne (hlabel : h.label a ≠ h.label b) : Decides (some false) (h.Same a b) :=
  .no fun hsame => hlabel (same_iff.1 hsame).1

theorem decides_leaf {answer : Bool} (ha : h.components a = []) (hb : h.components b = [])
    (hanswer : answer = true ↔ h.label a = h.label b) : Decides (some answer) (h.Same a b) := by
  refine ⟨answer, rfl, hanswer.trans ?_⟩
  rw [same_iff, ha, hb]
  simp

/-- Values are compared as rightly as the objects in them. -/
theorem RightBelow.decides (hright : h.RightBelow objectEqual? depth) (ha : h.Plain a) (hb : h.Plain b)
    (hdepth : (h.held a).ncard < depth) : Decides (a.equalWith objectEqual? b) (h.Same a b) := by
  refine ha.induction (motive := fun a => ∀ b, h.Plain b → (h.held a).ncard < depth →
    Decides (a.equalWith objectEqual? b) (h.Same a b)) ?_ b hb hdepth
  intro a ha ih b hb hdepth
  cases a with
  | float x => exact absurd .refl (ha.noFloat x)
  | list as =>
    cases b with
    | list bs =>
      have hsame : h.Same (.list as) (.list bs) ↔ List.Forall₂ h.Same as bs :=
        same_iff.trans (by simp [label, components])
      rw [Value.equalWith]
      split
      · next hlength =>
        refine (Value.equalAllWith_decides hlength fun a' ha' b' hb' => ?_).congr hsame.symm
        have hcomponent : h.Component a' (.list as) := ha'
        have hle := ncard_held_le_of_component hcomponent
        exact ih a' hcomponent b' (hb.component hb') (by omega)
      · next hlength => exact .no fun h => hlength (hsame.1 h).length_eq
    | _ => exact decides_of_label_ne (by simp [label])
  | object ref =>
    cases b with
    | object ref' => exact hright ref ref' ha hb hdepth
    | _ => exact decides_of_label_ne (by simp [label])
  | int n =>
    cases b with
    | int m => exact decides_leaf rfl rfl (by simp [label])
    | float x => exact absurd .refl (hb.noFloat x)
    | _ => exact decides_of_label_ne (by simp [label])
  | none =>
    cases b with
    | none => exact .yes ha.same_refl
    | _ => exact decides_of_label_ne (by simp [label])
  | bool x =>
    cases b with
    | bool y => exact decides_leaf rfl rfl (by simp [label])
    | _ => exact decides_of_label_ne (by simp [label])
  | string x =>
    cases b with
    | string y => exact decides_leaf rfl rfl (by simp [label])
    | _ => exact decides_of_label_ne (by simp [label])
  | host name ref =>
    cases b with
    | host name' ref' => exact decides_leaf rfl rfl (by simp [label])
    | _ => exact decides_of_label_ne (by simp [label])
  | task id =>
    cases b with
    | task id' => exact decides_leaf rfl rfl (by simp [label])
    | _ => exact decides_of_label_ne (by simp [label])

/-- Compares two objects by their fields. -/
def fieldsEqual? (h : Heap) (objectEqual? : Nat → Nat → Option Bool) (a b : Nat) : Option Bool :=
  if (h.entries a).length = (h.entries b).length then
    Value.equalEntriesWith objectEqual? (h.entries a) (h.entries b)
  else some false

/-- Objects are compared rightly by their fields, as these contain fewer objects. -/
theorem RightBelow.decides_fields (hright : h.RightBelow objectEqual? depth) :
    h.RightBelow (h.fieldsEqual? objectEqual?) (depth + 1) := by
  intro a b ha hb hdepth
  have hsame : h.Same (.object a) (.object b) ↔
      (h.entries a).map (·.1) = (h.entries b).map (·.1) ∧
        List.Forall₂ h.Same ((h.entries a).map (·.2)) ((h.entries b).map (·.2)) :=
    same_iff.trans (by simp [label, components])
  unfold fieldsEqual?
  split
  · next hlength =>
    refine (Value.equalEntriesWith_decides hlength fun x hx y hy => ?_).congr hsame.symm
    have hx' : h.Component x.2 (.object a) := List.mem_map_of_mem hx
    have hy' : h.Component y.2 (.object b) := List.mem_map_of_mem hy
    refine hright.decides (ha.component hx') (hb.component hy') ?_
    have := ncard_held_lt ha.acyclic hx'
    omega
  · next hlength => exact .no fun h => hlength (by simpa using congrArg List.length (hsame.1 h).1)

/-- Comparing objects is right, however many steps it may take. -/
theorem rightBelow_objectEqual? (h : Heap) (depth : Nat) : h.RightBelow (h.objectEqual? depth) depth := by
  induction depth with
  | zero => exact fun a b _ _ hdepth => absurd hdepth (Nat.not_lt_zero _)
  | succ depth ih =>
    intro a b ha hb hdepth
    rw [objectEqual?]
    split
    · next heq =>
      subst heq
      exact .yes ha.same_refl
    · exact ih.decides_fields a b ha hb hdepth

/-- Compares two objects by their fields even if they are the same object, following references at most `depth`
deep. -/
def objectEqualFully? (h : Heap) : Nat → Nat → Nat → Option Bool
  | 0 => fun _ _ => none
  | depth + 1 => h.fieldsEqual? (h.objectEqualFully? depth)

theorem rightBelow_objectEqualFully? (h : Heap) (depth : Nat) :
    h.RightBelow (h.objectEqualFully? depth) depth := by
  induction depth with
  | zero => exact fun a b _ _ hdepth => absurd hdepth (Nat.not_lt_zero _)
  | succ depth ih => exact ih.decides_fields

/-- Whether two values are equal, where an object is compared with itself field by field. -/
def equalFully? (h : Heap) (a b : Value) : Option Bool :=
  Value.equalWith (h.objectEqualFully? ((h.objects.size + 1) * (h.objects.size + 1) + 1)) a b

theorem ncard_held_lt_bound (h : Heap) (v : Value) :
    (h.held v).ncard < (h.objects.size + 1) * (h.objects.size + 1) + 1 := by
  have hheld := h.ncard_held_le v
  have hsquare := Nat.le_mul_self (h.objects.size + 1)
  omega

theorem decides_equal? (ha : h.Plain a) (hb : h.Plain b) : Decides (h.equal? a b) (h.Same a b) :=
  (h.rightBelow_objectEqual? _).decides ha hb (h.ncard_held_lt_bound a)

theorem decides_equalFully? (ha : h.Plain a) (hb : h.Plain b) : Decides (h.equalFully? a b) (h.Same a b) :=
  (h.rightBelow_objectEqualFully? _).decides ha hb (h.ncard_held_lt_bound a)

/-- **Equality is structural.** Values without doubles and cycles have one unfolding each. Comparing two of them ends,
and finds them equal exactly if they have the same unfolding. So equality is reflexive, symmetric and
transitive, and comparing an object with itself field by field would not change an answer. -/
theorem equality_structural (h : Heap) :
    (∀ a, h.Plain a → ∃! u, h.Unfolds a u) ∧
    (∀ a b, h.Plain a → h.Plain b →
      ∃ answer, h.equal? a b = some answer ∧ (answer = true ↔ ∃ u, h.Unfolds a u ∧ h.Unfolds b u)) ∧
    (∀ a, h.Plain a → h.equal? a a = some true) ∧
    (∀ a b, h.Plain a → h.Plain b → h.equal? a b = h.equal? b a) ∧
    (∀ a b c, h.Plain a → h.Plain b → h.Plain c → h.equal? a b = some true → h.equal? b c = some true →
      h.equal? a c = some true) ∧
    ∀ a b, h.Plain a → h.Plain b → h.equalFully? a b = h.equal? a b := by
  refine ⟨?_, fun a b ha hb => decides_equal? ha hb, ?_, ?_, ?_, ?_⟩
  · intro a ha
    obtain ⟨u, hu⟩ := ha.exists_unfolds
    exact ⟨u, hu, fun u' hu' => ha.unfolds_unique _ _ hu' hu⟩
  · intro a ha
    exact (decides_equal? ha ha).eq_true_iff.2 ha.same_refl
  · intro a b ha hb
    exact (decides_equal? ha hb).unique ((decides_equal? hb ha).congr ⟨Same.symm, Same.symm⟩)
  · intro a b c ha hb hc hab hbc
    have hsame := hb.same_trans ((decides_equal? ha hb).eq_true_iff.1 hab) ((decides_equal? hb hc).eq_true_iff.1 hbc)
    exact (decides_equal? ha hc).eq_true_iff.2 hsame
  · intro a b ha hb
    exact (decides_equalFully? ha hb).unique (decides_equal? ha hb)

/-- Two objects that share one object in a list, and hold a constant with a type and a variable of the same
name and value. -/
def sharing : Heap where
  objects :=
    let field (name : String) (value : Value) : Variable := ⟨name, false, .any, value, 0, none⟩
    #[(∅ : Table String Variable).insert "x" ⟨"x", true, .int, .int 1, 3, none⟩,
      (∅ : Table String Variable).insert "x" (field "x" (.int 1)),
      ((∅ : Table String Variable).insert "p" (field "p" (.object 0))).insert "q" (field "q" (.list [.object 0])),
      ((∅ : Table String Variable).insert "p" (field "p" (.object 1))).insert "q" (field "q" (.list [.object 0]))]
  hosts := #[]

/-- The values of the heap, each after its components. -/
def shared : List Value := [.int 1, .object 0, .object 1, .list [.object 0], .object 2, .object 3]

theorem plain_of_shared {v : Value} (hv : v ∈ shared) : sharing.Plain v := by
  let rank : Value → Nat
    | .object ref => 3 * ref + 1
    | .list _ => 2
    | _ => 0
  refine Plain.of_rank (S := (· ∈ shared)) rank (by simp [shared]) ?_ hv
  have hclosed : ∀ v ∈ shared, ∀ w ∈ sharing.components v, w ∈ shared ∧ rank w < rank v := by
    have hint : sharing.components (.int 1) = [] := rfl
    have hlist : sharing.components (.list [.object 0]) = [.object 0] := rfl
    have hzero : sharing.components (.object 0) = [.int 1] := rfl
    have hone : sharing.components (.object 1) = [.int 1] := rfl
    have htwo : sharing.components (.object 2) = [.object 0, .list [.object 0]] := rfl
    have hthree : sharing.components (.object 3) = [.object 1, .list [.object 0]] := rfl
    simp [shared, rank, hint, hlist, hzero, hone, htwo, hthree]
  exact hclosed

/-- The two objects are equal, though they hold different objects. -/
theorem equality_structural_sharing :
    sharing.Plain (.object 2) ∧ sharing.Plain (.object 3) ∧
      sharing.equal? (.object 2) (.object 3) = some true ∧
      (∃ u, sharing.Unfolds (.object 2) u ∧ sharing.Unfolds (.object 3) u) ∧
      sharing.equalFully? (.object 2) (.object 2) = some true := by
  obtain ⟨-, hequal, hrefl, -, -, hfully⟩ := equality_structural sharing
  have htwo : sharing.Plain (.object 2) := plain_of_shared (by simp [shared])
  have hthree : sharing.Plain (.object 3) := plain_of_shared (by simp [shared])
  have hanswer : sharing.equal? (.object 2) (.object 3) = some true := by decide +kernel
  obtain ⟨answer, hfound, hsame⟩ := hequal _ _ htwo hthree
  refine ⟨htwo, hthree, hanswer, hsame.1 ?_, (hfully _ _ htwo htwo).trans (hrefl _ htwo)⟩
  exact Option.some.inj (hfound.symm.trans hanswer)

end Heap

end TreeScript
