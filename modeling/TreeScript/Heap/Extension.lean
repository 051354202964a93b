import TreeScript.Heap.Sketch
import TreeScript.Proofs.Table
import TreeScript.Proofs.Variable

/-!
# Heaps that grow

Code of the host makes objects whose fields are admitted by their types, and leaves the objects of
scripts that are there as they are. Objects of the host are its own.

* `Heap.Extends h h'`: the objects of scripts of `h'` are those of `h` and new ones.
* `Heap.extends_of_build`: a value that is made from a description extends the heap.
-/

namespace TreeScript

namespace Table

variable {κ α : Type} [Ord κ] [Std.TransOrd κ] [Std.LawfulEqOrd κ] [DecidableEq κ]

theorem mem_of_find?_insertAll {l : List (κ × α)} {t : Table κ α} {key : κ} {a : α}
    (h : (t.insertAll l).find? key = some a) : t.find? key = some a ∨ (key, a) ∈ l := by
  induction l generalizing t with
  | nil => exact .inl h
  | cons e l ih =>
    rcases ih (t := t.insert e.1 e.2) h with h | h
    · rw [find?_insert] at h
      split at h
      · rename_i hkey
        cases h
        subst hkey
        exact .inr List.mem_cons_self
      · exact .inl h
    · exact .inr (List.mem_cons_of_mem _ h)

/-- What a table made of a list holds is in the list. -/
theorem mem_of_find?_ofList {l : List (κ × α)} {key : κ} {a : α}
    (h : (ofList l).find? key = some a) : (key, a) ∈ l := by
  rcases mem_of_find?_insertAll h with h | h
  · rw [find?_empty] at h
    cases h
  · exact h

end Table

/-- All variables of a table are admitted by their types. -/
def Admits (fields : Table String Variable) : Prop :=
  ∀ name v, fields.find? name = some v → v.Admitted

namespace Heap

/-- The objects of scripts are still there, and the new ones have admitted fields. -/
def Extends (h h' : Heap) : Prop :=
  ∃ made : List (Table String Variable), h'.objects.toList = h.objects.toList ++ made ∧
    ∀ fields ∈ made, Admits fields

theorem Extends.of_eq {h h' : Heap} (he : h'.objects = h.objects) : h.Extends h' :=
  ⟨[], by rw [he, List.append_nil], fun _ hf => nomatch hf⟩

theorem Extends.refl (h : Heap) : h.Extends h := .of_eq rfl

theorem Extends.trans {h h' h'' : Heap} : h.Extends h' → h'.Extends h'' → h.Extends h''
  | ⟨made, he, hm⟩, ⟨made', he', hm'⟩ => ⟨made ++ made', by rw [he', he, List.append_assoc],
      fun fields hf => (List.mem_append.1 hf).elim (hm fields) (hm' fields)⟩

theorem extends_newObject (h : Heap) {fields : Table String Variable} (hf : Admits fields) :
    h.Extends (h.newObject fields).2 :=
  ⟨[fields], by simp [newObject], fun _ hm => List.mem_singleton.1 hm ▸ hf⟩

theorem extends_newHost (h : Heap) (o : HostObject) : h.Extends (h.newHost o).2 := .of_eq rfl

theorem extends_setHostField {h h' : Heap} {ref : Nat} {name : String} {value : Value}
    (hs : h.setHostField ref name value = .ok h') : h.Extends h' := by
  unfold setHostField at hs
  split at hs
  · cases hs
  · rename_i o _
    cases ho : o.setField name value with
    | error e =>
      rw [ho] at hs
      cases hs
    | ok o' =>
      rw [ho] at hs
      cases hs
      exact .of_eq rfl

theorem exists_of_build_bind {α β : Type} {x : Build α} {f : α → Build β} {h : Heap} {b : β × Heap}
    (hb : (x >>= f).run h = .ok b) : ∃ a, x.run h = .ok a ∧ (f a.1).run a.2 = .ok b := by
  cases hx : x.run h with
  | ok a => exact ⟨a, rfl, by rw [StateT.run_bind, hx] at hb; exact hb⟩
  | error e =>
    rw [StateT.run_bind, hx] at hb
    cases hb

mutual

theorem extends_of_build {s : Sketch} {h : Heap} {r : Value × Heap}
    (hr : (build s).run h = .ok r) : h.Extends r.2 := by
  match s with
  | .known value =>
    cases hr
    exact .refl h
  | .list elements =>
    obtain ⟨a, ha, hr⟩ := exists_of_build_bind hr
    cases hr
    exact extends_of_buildAll ha
  | .object fields =>
    obtain ⟨a, ha, hr⟩ := exists_of_build_bind hr
    cases hr
    obtain ⟨he, hm⟩ := extends_of_buildVariables ha
    refine he.trans (extends_newObject _ fun name v hv => ?_)
    obtain ⟨w, hw, hwv⟩ := List.mem_map.1 (Table.mem_of_find?_ofList hv)
    have hv : w = v := congrArg Prod.snd hwv
    exact hv ▸ hm w hw
  | .host typeName fields =>
    obtain ⟨a, ha, hr⟩ := exists_of_build_bind hr
    cases hr
    exact (extends_of_buildHostFields ha).trans (extends_newHost _ _)

theorem extends_of_buildAll {l : List Sketch} {h : Heap} {r : List Value × Heap}
    (hr : (buildAll l).run h = .ok r) : h.Extends r.2 := by
  match l with
  | [] =>
    cases hr
    exact .refl h
  | s :: rest =>
    obtain ⟨a, ha, hr⟩ := exists_of_build_bind hr
    obtain ⟨b, hb, hr⟩ := exists_of_build_bind hr
    cases hr
    have hrest := extends_of_buildAll hb
    exact (extends_of_build ha).trans hrest

theorem extends_of_buildVariable {s : VariableSketch} {h : Heap} {r : Variable × Heap}
    (hr : (buildVariable s).run h = .ok r) : h.Extends r.2 ∧ r.1.Admitted := by
  match s with
  | ⟨name, constant, type, depth, span, value⟩ =>
    obtain ⟨a, ha, hr⟩ := exists_of_build_bind hr
    obtain ⟨b, hb, hr⟩ := exists_of_build_bind hr
    cases hr
    cases hv : Variable.make depth name constant type a.1 with
    | error e =>
      rw [hv] at hb
      cases hb
    | ok v =>
      rw [hv] at hb
      cases hb
      have hmade : v.Admitted := Variable.admitted_of_make hv
      exact ⟨extends_of_build ha, hmade⟩

theorem extends_of_buildVariables {l : List VariableSketch} {h : Heap} {r : List Variable × Heap}
    (hr : (buildVariables l).run h = .ok r) : h.Extends r.2 ∧ ∀ v ∈ r.1, v.Admitted := by
  match l with
  | [] =>
    cases hr
    exact ⟨.refl h, fun _ hv => nomatch hv⟩
  | s :: rest =>
    obtain ⟨a, ha, hr⟩ := exists_of_build_bind hr
    obtain ⟨b, hb, hr⟩ := exists_of_build_bind hr
    cases hr
    obtain ⟨he, hm⟩ := extends_of_buildVariable ha
    obtain ⟨he', hm'⟩ := extends_of_buildVariables hb
    exact ⟨he.trans he', List.forall_mem_cons.2 ⟨hm, hm'⟩⟩

theorem extends_of_buildHostFields {l : List HostFieldSketch} {h : Heap}
    {r : List (String × HostField) × Heap} (hr : (buildHostFields l).run h = .ok r) :
    h.Extends r.2 := by
  match l with
  | [] =>
    cases hr
    exact .refl h
  | ⟨name, mode, value⟩ :: rest =>
    obtain ⟨a, ha, hr⟩ := exists_of_build_bind hr
    obtain ⟨b, hb, hr⟩ := exists_of_build_bind hr
    cases hr
    have hrest := extends_of_buildHostFields hb
    exact (extends_of_build ha).trans hrest

end

end Heap

end TreeScript
