import TreeScript.Proofs.Overload.Resolution

/-!
# Coercion of arguments

A signature assigns a type to each position of an argument list: the parameter there, and behind the last
parameter of a variadic routine that of the last one (`Native.Signature.Assigns`). Coercion works position by
position with these types, so it succeeds if the number of arguments fits and every argument is taken by the
type at its position, and what it gives is the list of the stored forms.

Stored forms are stored as they are (`ValueType.adapt?_idem`), so coercing a second time changes nothing
(`Native.Signature.coerce_coerce`).
-/

namespace TreeScript.Native.Signature

variable {s : Signature} {i : Nat} {T : ValueType} {vs ws : List Value}

/-- The number of arguments fits: as many as there are parameters, or at most one less and any number more if
the last one is variadic. -/
def HasArity (s : Signature) (count : Nat) : Prop :=
  if s.variadic then s.parameters.length ≤ count + 1 else count = s.parameters.length

/-- The type of the argument at a position. -/
inductive Assigns (s : Signature) (i : Nat) : ValueType → Prop
  /-- The type of the parameter at this position. -/
  | own {T : ValueType} (h : s.parameters[i]? = some T) : Assigns s i T
  /-- The type of the last parameter, behind it. -/
  | trailing {T : ValueType} (hvariadic : s.variadic = true) (hi : s.parameters.length ≤ i)
      (h : s.parameters.getLast? = some T) : Assigns s i T
  /-- Every value is taken if there are no parameters and yet any number of arguments. -/
  | free (hvariadic : s.variadic = true) (h : s.parameters = []) : Assigns s i .any

/-- A position has one type at most. -/
theorem Assigns.eq_typeAt (h : s.Assigns i T) : T = s.typeAt i := by
  unfold typeAt
  cases h with
  | own h => rw [h, Option.getD_some]
  | trailing _ hi h => rw [List.getElem?_eq_none hi, h, Option.getD_none, Option.getD_some]
  | free _ h => simp [h]

/-- The position of an argument has a type. -/
theorem assigns_typeAt {count : Nat} (h : s.HasArity count) (hi : i < count) : s.Assigns i (s.typeAt i) := by
  cases hT : s.parameters[i]? with
  | some T =>
    have hown : s.Assigns i T := .own hT
    exact hown.eq_typeAt ▸ hown
  | none =>
    have hlength := List.getElem?_eq_none_iff.1 hT
    have hvariadic : s.variadic = true := by
      by_contra hnot
      unfold HasArity at h
      rw [if_neg hnot] at h
      omega
    cases hlast : s.parameters.getLast? with
    | some T =>
      have htrailing : s.Assigns i T := .trailing hvariadic hlength hlast
      exact htrailing.eq_typeAt ▸ htrailing
    | none =>
      have hfree : s.Assigns i .any := .free hvariadic (List.getLast?_eq_none_iff.1 hlast)
      exact hfree.eq_typeAt ▸ hfree

theorem fits_iff_hasArity {count : Nat} : s.fits count = true ↔ s.HasArity count := by
  unfold fits HasArity
  split <;> exact decide_eq_true_iff

theorem coerceFrom_of_coerce (h : s.coerce vs = .ok ws) : s.coerceFrom 0 vs = .ok ws := by
  unfold coerce at h
  split at h
  · exact h
  · cases h

theorem length_coerce (h : s.coerce vs = .ok ws) : ws.length = vs.length :=
  length_coerceFrom (coerceFrom_of_coerce h)

/-- Coercing a second time changes nothing. -/
theorem coerce_coerce (h : s.coerce vs = .ok ws) : s.coerce ws = .ok ws := by
  obtain ⟨hfits, -⟩ := coerce_eq_ok_iff.1 h
  refine coerce_eq_ok_iff.2 ⟨length_coerce h ▸ hfits, List.ext_getElem? fun i => ?_⟩
  rw [List.getElem?_mapIdx, List.getElem?_map]
  cases hw : ws[i]? with
  | none => rfl
  | some w =>
    have hstored := adapt?_coerceFrom (coerceFrom_of_coerce h) hw
    rw [Nat.zero_add] at hstored
    exact congrArg some hstored

/-- **Stable and pointwise.** Every type stores its stored forms as they are. The arguments of a call can be
coerced exactly if their number fits and each is taken by the type of its own position. What comes of them
has the same length, holds the stored form of each argument at its position, and is coerced to itself. -/
theorem coerce_stable :
    (∀ (T : ValueType) (v w : Value), T.adapt? v = some w → T.adapt? w = some w) ∧
    ∀ (s : Signature) (vs : List Value),
      ((∃ ws, s.coerce vs = .ok ws) ↔ s.HasArity vs.length ∧
        ∀ (i : Nat) v, vs[i]? = some v → ∃ T, s.Assigns i T ∧ ∃ w, T.adapt? v = some w) ∧
      ∀ ws, s.coerce vs = .ok ws → ws.length = vs.length ∧
        (∀ (i : Nat) v w T, vs[i]? = some v → ws[i]? = some w → s.Assigns i T → T.adapt? v = some w) ∧
        s.coerce ws = .ok ws := by
  refine ⟨fun T v w => ValueType.adapt?_idem, fun s vs => ⟨?_, fun ws h => ?_⟩⟩
  · rw [exists_coerce_iff, fits_iff_hasArity]
    refine and_congr_right fun harity => forall₂_congr fun i v => imp_congr_right fun hv => ?_
    have hi : i < vs.length := (List.getElem?_eq_some_iff.1 hv).1
    refine ⟨fun htakes => ⟨_, assigns_typeAt harity hi, Option.isSome_iff_exists.1 htakes⟩, ?_⟩
    rintro ⟨T, hT, w, hw⟩
    exact hT.eq_typeAt ▸ Option.isSome_of_eq_some hw
  · refine ⟨length_coerce h, fun i v w T hv hw hT => ?_, coerce_coerce h⟩
    have hi := getElem?_coerceFrom (coerceFrom_of_coerce h) i
    rw [hv, hw, Nat.zero_add] at hi
    exact hT.eq_typeAt ▸ (Option.some.inj hi).symm

/-- A text, and then any number of lists of lists of doubles. -/
def tables : Signature := ⟨[.string, .list (.list .float)], .void, true⟩

/-- Integers become doubles inside of nested lists, and `none` stays where it is. -/
theorem coerce_stable_tables :
    let given : List Value := [.none, .list [.list [.int 1, .float 2.5], .none], .list [.list [.none, .int 3]]]
    let stored : List Value := [.none, .list [.list [.float (Int64.toFloat 1), .float 2.5], .none],
      .list [.list [.none, .float (Int64.toFloat 3)]]]
    tables.HasArity given.length ∧ tables.coerce given = .ok stored ∧
      (ValueType.list (.list .float)).adapt? (.list [.list [.none, .int 3]]) =
        some (.list [.list [.none, .float (Int64.toFloat 3)]]) ∧
      tables.coerce stored = .ok stored := by
  intro given stored
  have hcoerce : tables.coerce given = .ok stored := rfl
  obtain ⟨hexists, hresult⟩ := coerce_stable.2 tables given
  obtain ⟨-, hpositions, hagain⟩ := hresult stored hcoerce
  refine ⟨(hexists.1 ⟨stored, hcoerce⟩).1, hcoerce, ?_, hagain⟩
  exact hpositions 2 _ _ _ rfl rfl (.trailing rfl (by decide) rfl)

end TreeScript.Native.Signature
