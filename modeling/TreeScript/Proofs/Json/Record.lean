import Mathlib.Data.List.Forall2
import TreeScript.Json.Record
import TreeScript.Proofs.Json.Reading

/-!
# Records and their members

A `Member` says what a record has to give under a name, and whether the name may be left out. An object is a record
of members (`IsRecord`) if it gives each of them once or, where that is allowed, not at all. Their order is free,
and so is every other name.

`Decodes bound decode R` says that `decode` comes back to `a` from every document that stands for `a` in the sense
of `R` and is nested less than `bound` deep. The members of a record are decoded by the decoders of their values.
-/

namespace TreeScript.Json

/-! ## Members of an object -/

/-- The values that an object gives for a name. -/
def valuesOf (name : String) (ms : List (String × Json)) : List Json := (ms.filter (·.1 == name)).map (·.2)

@[simp]
theorem valuesOf_nil (name : String) : valuesOf name [] = [] := rfl

@[simp]
theorem valuesOf_cons (name : String) (m : String × Json) (ms : List (String × Json)) :
    valuesOf name (m :: ms) = if m.1 = name then m.2 :: valuesOf name ms else valuesOf name ms := by
  by_cases h : m.1 = name <;> simp [valuesOf, h]

/-- A member of a record: its name, the values it can have, and whether it may be left out. -/
structure Member where
  name : String
  holds : Json → Prop
  omissible : Prop

/-- An object gives a member once, or leaves it out if it may. -/
def Member.Given (m : Member) (ms : List (String × Json)) : Prop :=
  (∃ j, valuesOf m.name ms = [j] ∧ m.holds j) ∨ valuesOf m.name ms = [] ∧ m.omissible

/-- A document is an object that gives some members, and perhaps others. -/
def IsRecord (members : List Member) (j : Json) : Prop := ∃ ms, j = object ms ∧ ∀ m ∈ members, m.Given ms

variable {name : String} {ms : List (String × Json)} {members : List Member}

theorem find?_eq_head? : (Fields.mk ms).find? name = (valuesOf name ms).head? := by
  rw [Fields.find?, valuesOf, List.head?_map, List.head?_filter]

theorem depth_lt_of_valuesOf {j : Json} (h : valuesOf name ms = [j]) : j.depth < (object ms).depth := by
  have hj : j ∈ valuesOf name ms := by simp [h]
  obtain ⟨m, hm, rfl⟩ := List.mem_map.mp hj
  exact depth_lt_object (List.mem_of_mem_filter hm)

theorem not_isRecord_null : ¬IsRecord members null := by
  rintro ⟨ms, h, _⟩
  cases h

/-- The members of a record are taken from an object that gives them. -/
theorem objectFields?_of_given (h : ∀ m ∈ members, m.Given ms) :
    objectFields? (members.map Member.name) (object ms) = some ⟨ms⟩ := by
  have hunique : namesUnique (members.map Member.name) ms = true := by
    simp only [namesUnique, List.all_map, List.all_eq_true, Function.comp_apply, decide_eq_true_eq]
    intro m hm
    have hlength : (valuesOf m.name ms).length ≤ 1 := by
      rcases h m hm with ⟨j, hj, _⟩ | ⟨hnil, _⟩
      · simp [hj]
      · simp [hnil]
    simpa [valuesOf] using hlength
  rw [objectFields?, if_pos hunique]

/-! ## Decoders -/

/-- A decoder comes back to `a` from every document that stands for it and is not too deep. -/
def Decodes {α : Type} (bound : Nat) (decode : Json → Option α) (R : α → Json → Prop) : Prop :=
  ∀ a j, R a j → j.depth < bound → decode j = some a

/-- A document is a text. -/
def IsText (s : String) (j : Json) : Prop := j = string s

/-- A document is a truth value. -/
def IsBool (b : Bool) (j : Json) : Prop := j = bool b

/-- A document is an integer that fits into 64 bits without a sign. -/
def IsNatural (n : Nat) (j : Json) : Prop := j = int n ∧ n < Nat.pow 2 64

/-- A document stands for something that may be absent. -/
def Nullable {α : Type} (R : α → Json → Prop) : Option α → Json → Prop
  | none, j => j = null
  | some a, j => R a j

/-- A document is an array whose elements are as they have to be. -/
def IsArray (elements : List Json → Prop) (j : Json) : Prop := ∃ js, j = array js ∧ elements js

/-- Documents start with one and go on with others. -/
def Row (first : Json → Prop) (others : List Json → Prop) (js : List Json) : Prop :=
  ∃ j rest, js = j :: rest ∧ first j ∧ others rest

variable {α : Type} {bound : Nat} {decode : Json → Option α} {R : α → Json → Prop} {a : α}

/-- Documents that stand in a row for the elements of a list stand for them one by one. -/
theorem eq_forall₂_of_row {rows : List α → List Json → Prop} (hnil : rows [] = fun js => js = [])
    (hcons : ∀ a as, rows (a :: as) = Row (R a) (rows as)) (as : List α) : rows as = List.Forall₂ R as := by
  funext js
  apply propext
  induction as generalizing js with
  | nil => simp [hnil]
  | cons a as ih =>
    rw [hcons, Row, List.forall₂_cons_left_iff]
    constructor
    · rintro ⟨j, rest, rfl, ha, has⟩
      exact ⟨j, rest, ha, (ih rest).mp has, rfl⟩
    · rintro ⟨j, rest, ha, has, rfl⟩
      exact ⟨j, rest, rfl, ha, (ih rest).mpr has⟩

theorem decodes_text : Decodes bound text? IsText := by
  rintro s j rfl _
  rfl

theorem not_isText_null (s : String) : ¬IsText s null := by
  intro h
  cases h

theorem not_isNatural_null (n : Nat) : ¬IsNatural n null := by
  intro h
  cases h.1

theorem decodes_bool : Decodes bound bool? IsBool := by
  rintro b j rfl _
  rfl

theorem decodes_natural : Decodes bound natural? IsNatural := by
  rintro n j ⟨rfl, hn⟩ _
  simp [natural?, hn]

theorem decodes_tagName {names : List String} : Decodes bound (tagName? names) IsText := by
  rintro s j rfl _
  rfl

namespace Decodes

theorem mono {bound' : Nat} (h : Decodes bound decode R) (hle : bound' ≤ bound) : Decodes bound' decode R :=
  fun a j ha hj => h a j ha (hj.trans_le hle)

theorem mapM {as : List α} {js : List Json} (h : Decodes bound decode R) (hjs : List.Forall₂ R as js)
    (hdepth : ∀ j ∈ js, j.depth < bound) : js.mapM decode = some as := by
  induction hjs with
  | nil => rfl
  | @cons a j as js ha _ ih =>
    have hj := h a j ha (hdepth j (by simp))
    have hrest := ih fun i hi => hdepth i (by simp [hi])
    simp [List.mapM_cons, hj, hrest]

theorem list (h : Decodes bound decode R) :
    Decodes bound (list? decode) fun as => IsArray (List.Forall₂ R as) := by
  rintro as j ⟨js, rfl, hjs⟩ hdepth
  apply h.mapM hjs
  intro i hi
  exact (depth_lt_array hi).trans hdepth

theorem required (h : Decodes (object ms).depth decode R) (hm : Member.Given ⟨name, R a, False⟩ ms) :
    (Fields.mk ms).required name decode = some a := by
  rcases hm with ⟨j, hj, ha⟩ | ⟨_, hfalse⟩
  · rw [Fields.required, find?_eq_head?, hj]
    exact h a j ha (depth_lt_of_valuesOf hj)
  · exact hfalse.elim

theorem withDefault {default : α} (h : Decodes (object ms).depth decode R)
    (hm : Member.Given ⟨name, R a, a = default⟩ ms) :
    (Fields.mk ms).withDefault name default decode = some a := by
  rcases hm with ⟨j, hj, ha⟩ | ⟨hnil, rfl⟩
  · rw [Fields.withDefault, find?_eq_head?, hj]
    exact h a j ha (depth_lt_of_valuesOf hj)
  · rw [Fields.withDefault, find?_eq_head?, hnil]
    rfl

theorem optional {a : Option α} (h : Decodes (object ms).depth decode R) (hnull : ∀ a, ¬R a null)
    (hm : Member.Given ⟨name, Nullable R a, a = none⟩ ms) :
    (Fields.mk ms).optional name decode = some a := by
  rw [Fields.optional, find?_eq_head?]
  rcases hm with ⟨j, hj, ha⟩ | ⟨hnil, rfl⟩
  · rw [hj]
    cases a with
    | none =>
      cases ha
      rfl
    | some a =>
      have hdecode := h a j ha (depth_lt_of_valuesOf hj)
      cases j with
      | null => exact (hnull a ha).elim
      | _ => exact congrArg (Option.map some) hdecode
  · rw [hnil]
    rfl

end Decodes

/-- A tag that is given once is found in its object. -/
theorem tagged?_of_given {tag : String} {names : List String} (h : Member.Given ⟨tag, IsText name, False⟩ ms) :
    tagged? tag names (object ms) = some (name, object ms) := by
  rcases h with ⟨j, hj, rfl⟩ | ⟨_, hfalse⟩
  · obtain ⟨m, hm, hvalue⟩ := List.map_eq_singleton_iff.mp hj
    rw [tagged?, hm]
    simp [hvalue, tagName?]
  · exact hfalse.elim

/-- The members of a record, with what its object gives for them. -/
theorem IsRecord.fields {j : Json} (h : IsRecord members j) : ∃ ms, j = object ms ∧
    objectFields? (members.map Member.name) (object ms) = some ⟨ms⟩ ∧ ∀ m ∈ members, m.Given ms := by
  obtain ⟨ms, rfl, h⟩ := h
  exact ⟨ms, rfl, objectFields?_of_given h, h⟩

/-- The members of a tagged record, with its tag. -/
theorem IsRecord.taggedFields {tag : String} {j : Json} (h : IsRecord (⟨tag, IsText name, False⟩ :: members) j) :
    ∃ ms, j = object ms ∧ (∀ names, tagged? tag names (object ms) = some (name, object ms)) ∧
      objectFields? (members.map Member.name) (object ms) = some ⟨ms⟩ ∧ ∀ m ∈ members, m.Given ms := by
  obtain ⟨ms, rfl, h⟩ := h
  obtain ⟨htag, h⟩ := List.forall_mem_cons.mp h
  exact ⟨ms, rfl, fun _ => tagged?_of_given htag, objectFields?_of_given h, h⟩

end TreeScript.Json
