import Mathlib.Data.List.Nodup
import Mathlib.Logic.ExistsUnique
import Mathlib.Tactic.Common
import TreeScript.Binding

/-!
# Which argument goes to which parameter

`Binding.GoesTo` says which parameter an argument is for, without a word on how slots are filled. Arguments
can be bound if `Binding.Accepts` holds; then every parameter has the value of its argument, or its default
if there is none for it (`Binding.Bound`). Otherwise `Binding.Refusal` gives the first reason to refuse them.

Where nothing is wrong, every argument goes to exactly one parameter, and no two go to the same. There is a
reason to refuse arguments only if they are not accepted, and only one.
-/

namespace TreeScript.Binding

/-- The first number with a property. -/
def First (P : Nat → Prop) (i : Nat) : Prop := P i ∧ ∀ k < i, ¬P k

theorem First.unique {P : Nat → Prop} {i j : Nat} (hi : First P i) (hj : First P j) : i = j := by
  rcases Nat.lt_trichotomy i j with h | h | h
  · exact absurd hi.1 (hj.2 i h)
  · exact h
  · exact absurd hj.1 (hi.2 j h)

variable {ps : List Parameter} {as : List Argument}

/-! ## The rule -/

/-- The number of parameters without a default. -/
def required (ps : List Parameter) : Nat := ps.countP (!·.hasDefault)

/-- The place of a parameter in the order in which arguments without names are taken: those without a
default come first. -/
def rank (ps : List Parameter) (i : Nat) : Nat :=
  if ps[i]?.any (·.hasDefault) then required ps + (ps.take i).countP (·.hasDefault)
  else (ps.take i).countP (!·.hasDefault)

/-- The parameter at a position has this name. -/
def IsCalled (ps : List Parameter) (name : String) (i : Nat) : Prop :=
  ∃ p, ps[i]? = some p ∧ p.name = name

/-- Some argument has a name. -/
def SomeNamed (as : List Argument) : Prop := ∃ a ∈ as, a.isNamed = true

/-- The argument number `j` is for the parameter number `i`. -/
inductive GoesTo (ps : List Parameter) (as : List Argument) (j i : Nat) : Prop
  /-- Where none has a name, they are taken in the order of the ranks. -/
  | inOrder (unnamed : ¬SomeNamed as) (argument : j < as.length) (parameter : i < ps.length)
      (turn : rank ps i = j)
  /-- Where some have names, one without is for the parameter at its own position. -/
  | own {value : Value} (named : SomeNamed as) (argument : as[j]? = some ⟨none, value⟩)
      (parameter : i < ps.length) (same : i = j)
  /-- One with a name is for the first parameter of that name. -/
  | named {name : String} {value : Value} (argument : as[j]? = some ⟨some name, value⟩)
      (parameter : First (IsCalled ps name) i)

/-- An argument without a name stands at the position of a parameter whose name is given too. -/
def Contested (ps : List Parameter) (as : List Argument) (j : Nat) : Prop :=
  ∃ value p, as[j]? = some ⟨none, value⟩ ∧ ps[j]? = some p ∧ ∃ a ∈ as, a.name = some p.name

/-- No parameter has the name of an argument, or an argument before it has that name. -/
def Wrong (ps : List Parameter) (as : List Argument) (k : Nat) : Prop :=
  ∃ name value, as[k]? = some ⟨some name, value⟩ ∧
    ((∀ i, ¬IsCalled ps name i) ∨ ∃ j < k, ∃ value', as[j]? = some ⟨some name, value'⟩)

/-- A parameter without a default is left over. -/
def Uncovered (ps : List Parameter) (as : List Argument) (i : Nat) : Prop :=
  ∃ p, ps[i]? = some p ∧ p.default = none ∧ ∀ j, ¬GoesTo ps as j i

/-- The arguments can be bound to the parameters. -/
inductive Accepts (ps : List Parameter) (as : List Argument) : Prop
  | inOrder (most : as.length ≤ ps.length) (unnamed : ∀ a ∈ as, a.name = none)
      (least : required ps ≤ as.length)
  | byName (most : as.length ≤ ps.length) (named : SomeNamed as)
      (free : ∀ (j : Nat) value p, as[j]? = some ⟨none, value⟩ → ps[j]? = some p →
        ∀ a ∈ as, a.name ≠ some p.name)
      (known : ∀ a ∈ as, ∀ name, a.name = some name → ∃ p ∈ ps, p.name = name)
      (once : as.Pairwise fun a b => ∀ name, a.name = some name → b.name ≠ some name)
      (covered : ∀ (i : Nat) p, ps[i]? = some p → (∃ j, GoesTo ps as j i) ∨ p.hasDefault = true)

/-- Why the arguments cannot be bound; an earlier reason comes before a later one. -/
inductive Refusal (ps : List Parameter) (as : List Argument) : Cause → Prop
  | tooMany (most : ps.length < as.length) :
      Refusal ps as (.tooManyArguments ps.length as.length)
  | tooFew (most : as.length ≤ ps.length) (unnamed : ¬SomeNamed as)
      (least : as.length < required ps) :
      Refusal ps as (.tooFewArguments (required ps) as.length)
  | contested {j : Nat} {p : Parameter} (most : as.length ≤ ps.length)
      (first : First (Contested ps as) j) (parameter : ps[j]? = some p) :
      Refusal ps as (.duplicateBinding p.name)
  | unknown {k : Nat} {name : String} {value : Value} (most : as.length ≤ ps.length)
      (free : ∀ j, ¬Contested ps as j) (first : First (Wrong ps as) k)
      (argument : as[k]? = some ⟨some name, value⟩) (unknown : ∀ i, ¬IsCalled ps name i) :
      Refusal ps as (.unknownArgument name)
  | repeated {i k : Nat} {name : String} {value : Value} (most : as.length ≤ ps.length)
      (free : ∀ j, ¬Contested ps as j) (first : First (Wrong ps as) k)
      (argument : as[k]? = some ⟨some name, value⟩) (known : IsCalled ps name i) :
      Refusal ps as (.duplicateArgument name)
  | uncovered {i : Nat} {p : Parameter} (most : as.length ≤ ps.length) (named : SomeNamed as)
      (free : ∀ j, ¬Contested ps as j) (right : ∀ k, ¬Wrong ps as k)
      (first : First (Uncovered ps as) i) (parameter : ps[i]? = some p) :
      Refusal ps as (.argumentNotMatched p.name)

/-- Every parameter has the value of the argument that goes to it, and its default if there is none. -/
structure Bound (ps : List Parameter) (as : List Argument) (bound : List (Parameter × Value)) :
    Prop where
  parameters : bound.map (·.1) = ps
  /-- Every argument goes to one parameter. -/
  place : ∀ j < as.length, ∃! i, GoesTo ps as j i
  /-- No two arguments go to the same. -/
  distinct : ∀ j j' i, GoesTo ps as j i → GoesTo ps as j' i → j = j'
  given : ∀ (i j : Nat) p v a, bound[i]? = some (p, v) → GoesTo ps as j i → as[j]? = some a → v = a.value
  others : ∀ (i : Nat) p v, bound[i]? = some (p, v) → (∀ j, ¬GoesTo ps as j i) → p.default = some v

/-! ## Names -/

theorem IsCalled.lt {name : String} {i : Nat} (h : IsCalled ps name i) : i < ps.length := by
  obtain ⟨p, hp, -⟩ := h
  exact (List.getElem?_eq_some_iff.1 hp).1

theorem IsCalled.name_eq {name name' : String} {i : Nat} (h : IsCalled ps name i)
    (h' : IsCalled ps name' i) : name = name' := by
  obtain ⟨p, hp, rfl⟩ := h
  obtain ⟨q, hq, rfl⟩ := h'
  cases hp.symm.trans hq
  rfl

theorem contested_of_called {i k : Nat} {name : String} {v v' : Value}
    (hown : as[i]? = some ⟨none, v⟩) (hi : IsCalled ps name i)
    (hk : as[k]? = some ⟨some name, v'⟩) : Contested ps as i := by
  obtain ⟨p, hp, rfl⟩ := hi
  exact ⟨v, p, hown, hp, _, List.mem_of_getElem? hk, rfl⟩

theorem someNamed_of_getElem? {j : Nat} {name : String} {value : Value}
    (h : as[j]? = some ⟨some name, value⟩) : SomeNamed as :=
  ⟨_, List.mem_of_getElem? h, rfl⟩

theorem Contested.someNamed {j : Nat} (h : Contested ps as j) : SomeNamed as := by
  obtain ⟨_, p, -, -, a, ha, hname⟩ := h
  exact ⟨a, ha, Option.isSome_iff_exists.2 ⟨p.name, hname⟩⟩

theorem Wrong.someNamed {k : Nat} (h : Wrong ps as k) : SomeNamed as := by
  obtain ⟨_, _, ha, -⟩ := h
  exact someNamed_of_getElem? ha

/-! ## Ranks -/

theorem getElem?_filter_zipIdx {α : Type} (f : α → Bool) (l : List α) (k j i : Nat) :
    (((l.zipIdx k).filter (f ·.1)).map (·.2))[j]? = some i ↔
      ∃ m x, i = k + m ∧ l[m]? = some x ∧ f x = true ∧ (l.take m).countP f = j := by
  induction l generalizing k j with
  | nil => simp
  | cons a l ih =>
    rw [List.zipIdx_cons, List.filter_cons]
    by_cases ha : f a = true
    · rw [if_pos ha, List.map_cons]
      cases j with
      | zero =>
        rw [List.getElem?_cons_zero]
        constructor
        · intro h
          cases h
          exact ⟨0, a, rfl, rfl, ha, rfl⟩
        · rintro ⟨m, x, rfl, hx, hfx, hcount⟩
          cases m with
          | zero => rfl
          | succ m => simp [ha] at hcount
      | succ j =>
        rw [List.getElem?_cons_succ, ih]
        constructor
        · rintro ⟨m, x, rfl, hx, hfx, hcount⟩
          exact ⟨m + 1, x, by omega, hx, hfx, by simp [ha, hcount]⟩
        · rintro ⟨m, x, rfl, hx, hfx, hcount⟩
          cases m with
          | zero => simp at hcount
          | succ m => exact ⟨m, x, by omega, hx, hfx, by simpa [ha] using hcount⟩
    · rw [if_neg ha, ih]
      constructor
      · rintro ⟨m, x, rfl, hx, hfx, hcount⟩
        exact ⟨m + 1, x, by omega, hx, hfx, by simp [ha, hcount]⟩
      · rintro ⟨m, x, rfl, hx, hfx, hcount⟩
        cases m with
        | zero =>
          cases hx
          exact absurd hfx ha
        | succ m => exact ⟨m, x, by omega, hx, hfx, by simpa [ha] using hcount⟩

theorem rank_of_required {i : Nat} {p : Parameter} (hp : ps[i]? = some p)
    (h : p.hasDefault = false) : rank ps i = (ps.take i).countP (!·.hasDefault) := by
  simp [rank, hp, h]

theorem rank_of_default {i : Nat} {p : Parameter} (hp : ps[i]? = some p) (h : p.hasDefault = true) :
    rank ps i = required ps + (ps.take i).countP (·.hasDefault) := by
  simp [rank, hp, h]

/-- The ranks number the parameters in the order in which they are filled. -/
theorem getElem?_fillingOrder {j i : Nat} :
    (fillingOrder ps)[j]? = some i ↔ i < ps.length ∧ rank ps i = j := by
  have hfirst := getElem?_filter_zipIdx (fun p : Parameter => !p.hasDefault) ps 0
  have hlast := getElem?_filter_zipIdx (fun p : Parameter => p.hasDefault) ps 0
  have hlength : ((ps.zipIdx.filter (!·.1.hasDefault)).map (·.2)).length = required ps := by
    rw [List.length_map, ← List.countP_eq_length_filter, required]
    conv_rhs => rw [← List.zipIdx_map_fst 0 ps, List.countP_map]
    rfl
  rw [fillingOrder, List.map_append, List.getElem?_append, hlength]
  constructor
  · intro h
    split at h
    · obtain ⟨m, p, rfl, hp, hdefault, hcount⟩ := (hfirst j i).1 h
      rw [Nat.zero_add]
      obtain ⟨hm, -⟩ := List.getElem?_eq_some_iff.1 hp
      exact ⟨hm, (rank_of_required hp (by simpa using hdefault)).trans hcount⟩
    · obtain ⟨m, p, rfl, hp, hdefault, hcount⟩ := (hlast _ i).1 h
      rw [Nat.zero_add]
      obtain ⟨hm, -⟩ := List.getElem?_eq_some_iff.1 hp
      refine ⟨hm, (rank_of_default hp hdefault).trans ?_⟩
      omega
  · rintro ⟨hi, rfl⟩
    have hp := List.getElem?_eq_getElem hi
    cases hdefault : ps[i].hasDefault with
    | false =>
      have hrank := rank_of_required hp hdefault
      have hfound := (hfirst (rank ps i) i).2
        ⟨i, _, (Nat.zero_add i).symm, hp, by simp [hdefault], hrank.symm⟩
      have hlt := (List.getElem?_eq_some_iff.1 hfound).1
      rw [hlength] at hlt
      rw [if_pos hlt]
      exact hfound
    | true =>
      have hrank := rank_of_default hp hdefault
      rw [if_neg (by omega)]
      exact (hlast _ i).2 ⟨i, _, (Nat.zero_add i).symm, hp, hdefault, by omega⟩

theorem goesTo_iff_rank (hnamed : ¬SomeNamed as) {j i : Nat} :
    GoesTo ps as j i ↔ j < as.length ∧ i < ps.length ∧ rank ps i = j := by
  constructor
  · intro h
    cases h with
    | inOrder _ hj hi hrank => exact ⟨hj, hi, hrank⟩
    | own hsome => exact absurd hsome hnamed
    | named ha => exact absurd (someNamed_of_getElem? ha) hnamed
  · rintro ⟨hj, hi, hrank⟩
    exact .inOrder hnamed hj hi hrank

theorem rank_lt_required {i : Nat} {p : Parameter} (hp : ps[i]? = some p)
    (h : p.hasDefault = false) : rank ps i < required ps := by
  have hcount : (ps.take (i + 1)).countP (!·.hasDefault) = rank ps i + 1 := by
    rw [List.take_add_one, List.countP_append, rank_of_required hp h, hp]
    simp [h]
  have hle := (List.take_sublist (i + 1) ps).countP_le (p := (!·.hasDefault))
  rw [hcount] at hle
  exact hle

/-- A parameter without a default has one of the first ranks, so there is an argument for it. -/
theorem not_uncovered_of_required_le (hnamed : ¬SomeNamed as) (hleast : required ps ≤ as.length)
    (i : Nat) : ¬Uncovered ps as i := by
  rintro ⟨p, hp, hdefault, hnone⟩
  have hrequired : p.hasDefault = false := by rw [Parameter.hasDefault, hdefault]; rfl
  have hrank := Nat.lt_of_lt_of_le (rank_lt_required hp hrequired) hleast
  exact hnone _ (.inOrder hnamed hrank (List.getElem?_eq_some_iff.1 hp).1 rfl)

/-! ## Places -/

theorem findIdx?_eq_some_iff_first {name : String} {i : Nat} :
    ps.findIdx? (·.name == name) = some i ↔ First (IsCalled ps name) i := by
  rw [List.findIdx?_eq_some_iff_getElem]
  constructor
  · rintro ⟨hi, hname, hbefore⟩
    refine ⟨⟨_, List.getElem?_eq_getElem hi, beq_iff_eq.1 hname⟩, ?_⟩
    rintro k hk ⟨p, hp, hcalled⟩
    obtain ⟨_, rfl⟩ := List.getElem?_eq_some_iff.1 hp
    exact hbefore k hk (beq_iff_eq.2 hcalled)
  · rintro ⟨⟨p, hp, hname⟩, hbefore⟩
    obtain ⟨hi, rfl⟩ := List.getElem?_eq_some_iff.1 hp
    refine ⟨hi, beq_iff_eq.2 hname, fun k hk hcalled => hbefore k hk ?_⟩
    exact ⟨_, List.getElem?_eq_getElem (Nat.lt_trans hk hi), beq_iff_eq.1 hcalled⟩

theorem findIdx?_eq_none_iff_not_called {name : String} :
    ps.findIdx? (·.name == name) = none ↔ ∀ i, ¬IsCalled ps name i := by
  rw [List.findIdx?_eq_none_iff]
  constructor
  · rintro h i ⟨p, hp, hname⟩
    have hother := h p (List.mem_of_getElem? hp)
    rw [hname, beq_self_eq_true] at hother
    cases hother
  · intro h p hp
    obtain ⟨i, hi⟩ := List.mem_iff_getElem?.1 hp
    exact beq_eq_false_iff_ne.2 fun hname => h i ⟨p, hi, hname⟩

theorem GoesTo.exists_argument {i j : Nat} (h : GoesTo ps as j i) : ∃ a, as[j]? = some a := by
  cases h with
  | inOrder _ hj => exact ⟨_, List.getElem?_eq_getElem hj⟩
  | own _ ha => exact ⟨_, ha⟩
  | named ha => exact ⟨_, ha⟩

theorem length_fillingOrder (ps : List Parameter) : (fillingOrder ps).length = ps.length := by
  have hsplit := List.length_eq_length_filter_add (l := ps.zipIdx) (·.1.hasDefault)
  rw [fillingOrder, List.length_map, List.length_append]
  rw [List.length_zipIdx] at hsplit
  omega

/-- An argument goes to one parameter at most. -/
theorem GoesTo.unique {i i' j : Nat} (h : GoesTo ps as j i) (h' : GoesTo ps as j i') : i = i' := by
  cases h with
  | inOrder hnamed _ hi hrank =>
    obtain ⟨-, hi', hrank'⟩ := (goesTo_iff_rank hnamed).1 h'
    exact Option.some.inj ((getElem?_fillingOrder.2 ⟨hi, hrank⟩).symm.trans
      (getElem?_fillingOrder.2 ⟨hi', hrank'⟩))
  | own hnamed ha _ hsame =>
    cases h' with
    | inOrder hunnamed => exact absurd hnamed hunnamed
    | own _ _ _ hsame' => exact hsame.trans hsame'.symm
    | named ha' => cases ha.symm.trans ha'
  | named ha hi =>
    cases h' with
    | inOrder hunnamed => exact absurd (someNamed_of_getElem? ha) hunnamed
    | own _ ha' => cases ha.symm.trans ha'
    | named ha' hi' =>
      cases ha.symm.trans ha'
      exact hi.unique hi'

/-- Every argument goes to some parameter. -/
theorem exists_goesTo {j : Nat} (hmost : as.length ≤ ps.length) (hright : ∀ k, ¬Wrong ps as k)
    (hj : j < as.length) : ∃ i, GoesTo ps as j i := by
  by_cases hnamed : SomeNamed as
  · rcases ha : as[j] with ⟨name, value⟩
    have ha : as[j]? = some ⟨name, value⟩ := List.getElem?_eq_some_iff.2 ⟨hj, ha⟩
    cases name with
    | none => exact ⟨j, .own hnamed ha (Nat.lt_of_lt_of_le hj hmost) rfl⟩
    | some name =>
      cases hfound : ps.findIdx? (·.name == name) with
      | none =>
        have hunknown := findIdx?_eq_none_iff_not_called.1 hfound
        exact absurd ⟨name, value, ha, .inl hunknown⟩ (hright j)
      | some i => exact ⟨i, .named ha (findIdx?_eq_some_iff_first.1 hfound)⟩
  · have hlt : j < (fillingOrder ps).length := by
      rw [length_fillingOrder]
      exact Nat.lt_of_lt_of_le hj hmost
    obtain ⟨hi, hrank⟩ := getElem?_fillingOrder.1 (List.getElem?_eq_getElem hlt)
    exact ⟨_, .inOrder hnamed hj hi hrank⟩

/-- No two arguments go to the same parameter. -/
theorem GoesTo.injective {i j j' : Nat} (hfree : ∀ j, ¬Contested ps as j)
    (hright : ∀ k, ¬Wrong ps as k) (h : GoesTo ps as j i) (h' : GoesTo ps as j' i) : j = j' := by
  cases h with
  | inOrder hnamed _ _ hrank =>
    obtain ⟨-, -, hrank'⟩ := (goesTo_iff_rank hnamed).1 h'
    exact hrank.symm.trans hrank'
  | own hnamed ha _ hsame =>
    subst hsame
    cases h' with
    | inOrder hunnamed => exact absurd hnamed hunnamed
    | own _ _ _ hsame' => exact hsame'
    | named ha' hi' => exact absurd (contested_of_called ha hi'.1 ha') (hfree i)
  | @named name value ha hi =>
    cases h' with
    | inOrder hunnamed => exact absurd (someNamed_of_getElem? ha) hunnamed
    | own _ ha' _ hsame =>
      subst hsame
      exact absurd (contested_of_called ha' hi.1 ha) (hfree i)
    | @named name' value' ha' hi' =>
      cases hi.1.name_eq hi'.1
      rcases Nat.lt_trichotomy j j' with hlt | heq | hlt
      · exact absurd ⟨name, value', ha', .inr ⟨j, hlt, value, ha⟩⟩ (hright j')
      · exact heq
      · exact absurd ⟨name, value, ha, .inr ⟨j', hlt, value', ha'⟩⟩ (hright j)

/-! ## Acceptance -/

theorem getElem?_of_name {j : Nat} {name : String} (hj : j < as.length)
    (hname : as[j].name = some name) : as[j]? = some ⟨some name, as[j].value⟩ := by
  rw [List.getElem?_eq_getElem hj, ← hname]

theorem Accepts.length_le (h : Accepts ps as) : as.length ≤ ps.length := by
  cases h with
  | inOrder hmost => exact hmost
  | byName hmost => exact hmost

theorem accepts_iff_of_unnamed (hnamed : ¬SomeNamed as) :
    Accepts ps as ↔ as.length ≤ ps.length ∧ required ps ≤ as.length := by
  constructor
  · intro h
    cases h with
    | inOrder hmost _ hleast => exact ⟨hmost, hleast⟩
    | byName _ hsome => exact absurd hsome hnamed
  · rintro ⟨hmost, hleast⟩
    refine .inOrder hmost (fun a ha => ?_) hleast
    cases hname : a.name with
    | none => rfl
    | some name => exact absurd ⟨a, ha, Option.isSome_iff_exists.2 ⟨name, hname⟩⟩ hnamed

theorem accepts_iff_of_named (hnamed : SomeNamed as) :
    Accepts ps as ↔ as.length ≤ ps.length ∧ (∀ j, ¬Contested ps as j) ∧ (∀ k, ¬Wrong ps as k) ∧
      ∀ i, ¬Uncovered ps as i := by
  constructor
  · intro h
    cases h with
    | inOrder _ hunnamed =>
      obtain ⟨a, ha, hname⟩ := hnamed
      rw [Argument.isNamed, hunnamed a ha] at hname
      cases hname
    | byName hmost _ hfree hknown honce hcovered =>
      refine ⟨hmost, ?_, ?_, ?_⟩
      · rintro j ⟨value, p, ha, hp, a, hmem, hname⟩
        exact hfree j value p ha hp a hmem hname
      · rintro k ⟨name, value, ha, hunknown | ⟨j, hj, value', ha'⟩⟩
        · obtain ⟨p, hp, hname⟩ := hknown _ (List.mem_of_getElem? ha) name rfl
          obtain ⟨i, hi⟩ := List.mem_iff_getElem?.1 hp
          exact hunknown i ⟨p, hi, hname⟩
        · obtain ⟨hk, hak⟩ := List.getElem?_eq_some_iff.1 ha
          obtain ⟨hj', haj⟩ := List.getElem?_eq_some_iff.1 ha'
          have hdiffer := List.pairwise_iff_getElem.1 honce j k hj' hk hj name
          rw [haj, hak] at hdiffer
          exact hdiffer rfl rfl
      · rintro i ⟨p, hp, hdefault, hnone⟩
        rcases hcovered i p hp with ⟨j, hj⟩ | hhas
        · exact hnone j hj
        · rw [Parameter.hasDefault, hdefault] at hhas
          cases hhas
  · rintro ⟨hmost, hfree, hright, hcovered⟩
    refine .byName hmost hnamed ?_ ?_ ?_ ?_
    · intro j value p ha hp a hmem hname
      exact hfree j ⟨value, p, ha, hp, a, hmem, hname⟩
    · intro a hmem name hname
      by_contra hunknown
      obtain ⟨k, hk, rfl⟩ := List.getElem_of_mem hmem
      refine hright k ⟨name, _, getElem?_of_name hk hname, .inl ?_⟩
      rintro i ⟨p, hp, hcalled⟩
      exact hunknown ⟨p, List.mem_of_getElem? hp, hcalled⟩
    · rw [List.pairwise_iff_getElem]
      intro j k hj hk hjk name hname hname'
      exact hright k
        ⟨name, _, getElem?_of_name hk hname', .inr ⟨j, hjk, _, getElem?_of_name hj hname⟩⟩
    · intro i p hp
      by_cases hgoes : ∃ j, GoesTo ps as j i
      · exact .inl hgoes
      · refine .inr ?_
        cases hdefault : p.default with
        | none => exact absurd ⟨p, hp, hdefault, not_exists.1 hgoes⟩ (hcovered i)
        | some v => exact Option.isSome_iff_exists.2 ⟨v, hdefault⟩

theorem Refusal.not_accepts {cause : Cause} (h : Refusal ps as cause) : ¬Accepts ps as := by
  intro haccepts
  cases h with
  | tooMany hmost => exact Nat.not_le_of_lt hmost haccepts.length_le
  | tooFew _ hnamed hleast =>
    exact absurd ((accepts_iff_of_unnamed hnamed).1 haccepts).2 (Nat.not_le_of_lt hleast)
  | contested _ hfirst =>
    exact ((accepts_iff_of_named hfirst.1.someNamed).1 haccepts).2.1 _ hfirst.1
  | unknown _ _ hfirst => exact ((accepts_iff_of_named hfirst.1.someNamed).1 haccepts).2.2.1 _ hfirst.1
  | repeated _ _ hfirst => exact ((accepts_iff_of_named hfirst.1.someNamed).1 haccepts).2.2.1 _ hfirst.1
  | uncovered _ hnamed _ _ hfirst => exact ((accepts_iff_of_named hnamed).1 haccepts).2.2.2 _ hfirst.1

/-- There is one first reason. -/
theorem Refusal.unique {cause cause' : Cause} (h : Refusal ps as cause)
    (h' : Refusal ps as cause') : cause = cause' := by
  -- Reasons of two kinds exclude one another, and what is first is so alone.
  cases h <;> cases h' <;> grind [First, First.unique, Contested.someNamed, Wrong.someNamed]

end TreeScript.Binding
