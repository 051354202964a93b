import TreeScript.Proofs.Binding.Rule

/-!
# How slots are filled

The ways to fill slots put values into slots that are free. So what a row of slots holds is described by a
relation that grows by one pair with each step (`Binding.Describes`). In the end it is that of the rule, or
the first reason to refuse the arguments has been met (`Binding.Ends`).
-/

namespace TreeScript

namespace Binding

variable {ps : List Parameter} {as : List Argument}

/-! ## What slots hold -/

/-- Exactly these values are in the slots, at these positions. -/
structure Describes (R : Nat → Value → Prop) (size : Nat) (slots : Slots) : Prop where
  length : slots.length = size
  slot : ∀ i v, slots[i]? = some (some v) ↔ R i v

namespace Describes

variable {R R' : Nat → Value → Prop} {size : Nat} {slots : Slots}

theorem empty (size : Nat) : Describes (fun _ _ => False) size (List.replicate size none) where
  length := List.length_replicate
  slot i v := by simp [List.getElem?_replicate]

theorem congr (h : Describes R size slots) (hR : ∀ i v, R i v ↔ R' i v) :
    Describes R' size slots :=
  ⟨h.length, fun i v => (h.slot i v).trans (hR i v)⟩

theorem isSome_join {i : Nat} (h : Describes R size slots) :
    (slots[i]?.join).isSome = true ↔ ∃ v, R i v := by
  rw [Option.isSome_iff_exists]
  exact exists_congr fun v => Option.join_eq_some_iff.trans (h.slot i v)

/-- A value is put into a slot that is free. -/
theorem set {i : Nat} {value : Value} (h : Describes R size slots) (hi : i < size)
    (hfree : ∀ v, ¬R i v) (hR : ∀ k v, R' k v ↔ R k v ∨ k = i ∧ v = value) :
    Describes R' size (slots.set i (some value)) where
  length := by rw [List.length_set, h.length]
  slot k v := by
    rw [hR, List.getElem?_set]
    by_cases hk : i = k
    · subst hk
      simp [h.length, hi, hfree, eq_comm]
    · simp [hk, h.slot, Ne.symm hk]

theorem fill {pairs : List (Nat × Value)} (h : Describes R size slots)
    (hkeys : (pairs.map (·.1)).Nodup) (hlt : ∀ e ∈ pairs, e.1 < size)
    (hfree : ∀ e ∈ pairs, ∀ v, ¬R e.1 v) :
    Describes (fun i v => R i v ∨ (i, v) ∈ pairs) size
      (pairs.foldl (fun slots (index, value) => slots.set index (some value)) slots) := by
  induction pairs generalizing R slots with
  | nil => exact h.congr (by simp)
  | cons e pairs ih =>
    obtain ⟨i, value⟩ := e
    obtain ⟨hnew, hkeys⟩ := List.nodup_cons.1 hkeys
    have hset : Describes (fun k v => R k v ∨ k = i ∧ v = value) size (slots.set i (some value)) :=
      h.set (hlt _ List.mem_cons_self) (hfree _ List.mem_cons_self) fun _ _ => Iff.rfl
    refine (ih hset hkeys (fun e he => hlt e (List.mem_cons_of_mem _ he)) ?_).congr ?_
    · rintro e he v (hv | ⟨rfl, -⟩)
      · exact hfree e (List.mem_cons_of_mem _ he) v hv
      · exact hnew (List.mem_map.2 ⟨e, he, rfl⟩)
    · intro k v
      simp [or_assoc]

end Describes

/-! ## Arguments without names -/

/-- An argument with this value goes to the parameter at a position. -/
def Placed (ps : List Parameter) (as : List Argument) (i : Nat) (v : Value) : Prop :=
  ∃ j a, GoesTo ps as j i ∧ as[j]? = some a ∧ a.value = v

theorem describes_fill (hnamed : ¬SomeNamed as) :
    Describes (Placed ps as) ps.length
      (fill (List.replicate ps.length none) (fillingOrder ps) (as.map (·.value))) := by
  have hpair {k : Nat} {e : Nat × Value}
      (he : ((fillingOrder ps).zip (as.map (·.value)))[k]? = some e) :
      e.1 < ps.length ∧ rank ps e.1 = k :=
    getElem?_fillingOrder.1 (List.getElem?_zip_eq_some.1 he).1
  have hkeys : (((fillingOrder ps).zip (as.map (·.value))).map (·.1)).Nodup := by
    rw [List.nodup_iff_getElem?_ne_getElem?]
    intro k l hkl hl hsame
    rw [List.length_map] at hl
    have hk := List.getElem?_eq_getElem (Nat.lt_trans hkl hl)
    have hl := List.getElem?_eq_getElem hl
    rw [List.getElem?_map, List.getElem?_map, hk, hl] at hsame
    have hindex : k = l :=
      (hpair hk).2.symm.trans ((congrArg (rank ps) (Option.some.inj hsame)).trans (hpair hl).2)
    omega
  have hfilled := (Describes.empty ps.length).fill hkeys ?_ fun _ _ _ => id
  · refine hfilled.congr fun i v => ?_
    rw [false_or, List.mem_iff_getElem?]
    constructor
    · rintro ⟨j, hj⟩
      obtain ⟨hi, hrank⟩ := hpair hj
      have hvalue := (List.getElem?_zip_eq_some.1 hj).2
      rw [List.getElem?_map] at hvalue
      obtain ⟨a, ha, hv⟩ := Option.map_eq_some_iff.1 hvalue
      obtain ⟨hlt, -⟩ := List.getElem?_eq_some_iff.1 ha
      exact ⟨j, a, .inOrder hnamed hlt hi hrank, ha, hv⟩
    · rintro ⟨j, a, hj, ha, rfl⟩
      obtain ⟨-, hi, hrank⟩ := (goesTo_iff_rank hnamed).1 hj
      refine ⟨j, List.getElem?_zip_eq_some.2 ⟨getElem?_fillingOrder.2 ⟨hi, hrank⟩, ?_⟩⟩
      rw [List.getElem?_map, ha]
      rfl
  · intro e he
    obtain ⟨k, hk⟩ := List.mem_iff_getElem?.1 he
    exact (hpair hk).1

/-! ## Arguments with and without names -/

theorem getElem?_of_drop {index : Nat} {a : Argument} {rest : List Argument}
    (h : as.drop index = a :: rest) : as[index]? = some a ∧ as.drop (index + 1) = rest := by
  constructor
  · rw [← Nat.add_zero index, ← List.getElem?_drop, h]
    rfl
  · rw [← List.drop_drop, h]
    rfl

theorem lt_of_drop_nil {index i : Nat} {a : Argument} (h : as.drop index = [])
    (ha : as[i]? = some a) : i < index :=
  Nat.lt_of_lt_of_le (List.getElem?_eq_some_iff.1 ha).1 (List.drop_eq_nil_iff.1 h)

theorem unnamed_cons_none {index : Nat} {p : Parameter} {value : Value} {rest : List Argument}
    {slots : Slots} (hp : ps[index]? = some p) :
    unnamed ps as index (⟨none, value⟩ :: rest) slots =
      if as.any (·.isFor p.name) then .error (.duplicateBinding p.name)
      else unnamed ps as (index + 1) rest (slots.set index (some value)) := by
  rw [unnamed, hp]
  rfl

/-- The arguments without a name go to their own positions, as far as none of these is contested. -/
theorem unnamed_cases {index : Nat} {rest : List Argument} {slots : Slots}
    (hmost : as.length ≤ ps.length) (hrest : as.drop index = rest)
    (h : Describes (fun i v => i < index ∧ as[i]? = some ⟨none, v⟩) ps.length slots)
    (hfree : ∀ j < index, ¬Contested ps as j) :
    (∃ slots', unnamed ps as index rest slots = .ok slots' ∧
      Describes (fun i v => as[i]? = some ⟨none, v⟩) ps.length slots' ∧ ∀ j, ¬Contested ps as j) ∨
    ∃ j p, First (Contested ps as) j ∧ ps[j]? = some p ∧
      unnamed ps as index rest slots = .error (.duplicateBinding p.name) := by
  induction rest generalizing index slots with
  | nil =>
    refine .inl ⟨slots, rfl, h.congr fun i v => and_iff_right_of_imp (lt_of_drop_nil hrest), ?_⟩
    rintro j hj
    obtain ⟨_, _, ha, -⟩ := id hj
    exact hfree j (lt_of_drop_nil hrest ha) hj
  | cons a rest ih =>
    obtain ⟨ha, hnext⟩ := getElem?_of_drop hrest
    obtain ⟨name, value⟩ := a
    cases name with
    | some name =>
      have hindex {v : Value} : as[index]? ≠ some ⟨none, v⟩ := by
        rw [ha]
        simp
      refine ih hnext (h.congr fun i v => ?_)
        (Nat.forall_lt_succ_right.2 ⟨hfree, fun ⟨_, _, hnone, _⟩ => hindex hnone⟩)
      refine and_congr_left fun hv => ?_
      have hne : i ≠ index := by
        rintro rfl
        exact hindex hv
      omega
    | none =>
      obtain ⟨hlt, -⟩ := List.getElem?_eq_some_iff.1 ha
      have hp := List.getElem?_eq_getElem (Nat.lt_of_lt_of_le hlt hmost)
      rw [unnamed_cons_none hp]
      split
      · next hgiven =>
        obtain ⟨b, hb, hname⟩ := List.any_eq_true.1 hgiven
        exact .inr ⟨index, _, ⟨⟨value, _, ha, hp, b, hb, beq_iff_eq.1 hname⟩, hfree⟩, hp, rfl⟩
      · next hgiven =>
        have hindex : ¬Contested ps as index := by
          rintro ⟨_, p, -, hp', b, hb, hname⟩
          cases hp.symm.trans hp'
          exact hgiven (List.any_eq_true.2 ⟨b, hb, beq_iff_eq.2 hname⟩)
        refine ih hnext (h.set (Nat.lt_of_lt_of_le hlt hmost) ?_ fun i v => ?_)
          (Nat.forall_lt_succ_right.2 ⟨hfree, hindex⟩)
        · rintro v ⟨hself, -⟩
          exact Nat.lt_irrefl _ hself
        · by_cases hi : i = index
          · subst hi
            simp [ha, eq_comm]
          · have hlt : i < index + 1 ↔ i < index := by omega
            simp [hi, hlt]

/-- An argument without a name stands at a position, or one before `index` with a name is for it. -/
def PlacedBefore (ps : List Parameter) (as : List Argument) (index i : Nat) (v : Value) : Prop :=
  as[i]? = some ⟨none, v⟩ ∨
    ∃ j < index, ∃ name, as[j]? = some ⟨some name, v⟩ ∧ First (IsCalled ps name) i

theorem placedBefore_skip {index i : Nat} {value v : Value} (ha : as[index]? = some ⟨none, value⟩) :
    PlacedBefore ps as index i v ↔ PlacedBefore ps as (index + 1) i v := by
  refine or_congr_right (exists_congr fun j => and_congr_left fun ⟨name, haj, _⟩ => ?_)
  have hne : j ≠ index := by
    rintro rfl
    cases ha.symm.trans haj
  omega

theorem placedBefore_succ {index i : Nat} {name : String} {value : Value}
    (hi : First (IsCalled ps name) i) (ha : as[index]? = some ⟨some name, value⟩) (k : Nat)
    (v : Value) :
    PlacedBefore ps as (index + 1) k v ↔ PlacedBefore ps as index k v ∨ k = i ∧ v = value := by
  constructor
  · rintro (hown | ⟨j, hj, name', haj, hk⟩)
    · exact .inl (.inl hown)
    · rcases Nat.lt_succ_iff_lt_or_eq.1 hj with hj | rfl
      · exact .inl (.inr ⟨j, hj, name', haj, hk⟩)
      · cases ha.symm.trans haj
        exact .inr ⟨hk.unique hi, rfl⟩
  · rintro ((hown | ⟨j, hj, name', haj, hk⟩) | ⟨rfl, rfl⟩)
    · exact .inl hown
    · exact .inr ⟨j, Nat.lt_succ_of_lt hj, name', haj, hk⟩
    · exact .inr ⟨index, Nat.lt_succ_self _, name, ha, hi⟩

/-- The arguments with a name go to the first parameters of these names, as far as none is wrong. -/
theorem named_cases {index : Nat} {rest : List Argument} {slots : Slots}
    (hrest : as.drop index = rest) (hfree : ∀ j, ¬Contested ps as j)
    (h : Describes (PlacedBefore ps as index) ps.length slots)
    (hright : ∀ k < index, ¬Wrong ps as k) :
    (∃ slots', named ps rest slots = .ok slots' ∧
      Describes (PlacedBefore ps as as.length) ps.length slots' ∧ ∀ k, ¬Wrong ps as k) ∨
    ∃ k name value, First (Wrong ps as) k ∧ as[k]? = some ⟨some name, value⟩ ∧
      ((∀ i, ¬IsCalled ps name i) ∧ named ps rest slots = .error (.unknownArgument name) ∨
        (∃ i, IsCalled ps name i) ∧ named ps rest slots = .error (.duplicateArgument name)) := by
  induction rest generalizing index slots with
  | nil =>
    refine .inl ⟨slots, rfl, h.congr fun i v => or_congr_right (exists_congr fun j => ?_), ?_⟩
    · refine and_congr_left fun ⟨name, haj, _⟩ => ?_
      exact iff_of_true (lt_of_drop_nil hrest haj) (List.getElem?_eq_some_iff.1 haj).1
    · rintro k hk
      obtain ⟨_, _, ha, -⟩ := id hk
      exact hright k (lt_of_drop_nil hrest ha) hk
  | cons a rest ih =>
    obtain ⟨ha, hnext⟩ := getElem?_of_drop hrest
    obtain ⟨name, value⟩ := a
    cases name with
    | none =>
      refine ih hnext (h.congr fun i v => placedBefore_skip ha)
        (Nat.forall_lt_succ_right.2 ⟨hright, ?_⟩)
      rintro ⟨_, _, hnamed, -⟩
      cases ha.symm.trans hnamed
    | some name =>
      unfold named
      cases hfound : ps.findIdx? (·.name == name) with
      | none =>
        have hunknown := findIdx?_eq_none_iff_not_called.1 hfound
        exact .inr ⟨index, name, value, ⟨⟨name, value, ha, .inl hunknown⟩, hright⟩, ha,
          .inl ⟨hunknown, rfl⟩⟩
      | some i =>
        have hi := findIdx?_eq_some_iff_first.1 hfound
        dsimp only
        split
        · next htaken =>
          -- The value is that of an argument with the same name, or else the position is contested.
          obtain ⟨v, hown | ⟨j, hj, name', haj, hi'⟩⟩ := h.isSome_join.1 htaken
          · exact absurd (contested_of_called hown hi.1 ha) (hfree i)
          · cases hi.1.name_eq hi'.1
            exact .inr ⟨index, _, value, ⟨⟨_, value, ha, .inr ⟨j, hj, v, haj⟩⟩, hright⟩, ha,
              .inr ⟨⟨i, hi.1⟩, rfl⟩⟩
        · next htaken =>
          have hset := h.set hi.1.lt
            (fun v hv => htaken (h.isSome_join.2 ⟨v, hv⟩)) (placedBefore_succ hi ha)
          refine ih hnext hset (Nat.forall_lt_succ_right.2 ⟨hright, ?_⟩)
          rintro ⟨name', value', ha', hunknown | ⟨j, hj, v, haj⟩⟩ <;> cases ha.symm.trans ha'
          · exact hunknown i hi.1
          · exact htaken (h.isSome_join.2 ⟨v, .inr ⟨j, hj, name, haj, hi⟩⟩)

theorem placed_iff (hmost : as.length ≤ ps.length) (hnamed : SomeNamed as) {i : Nat} {v : Value} :
    PlacedBefore ps as as.length i v ↔ Placed ps as i v := by
  constructor
  · rintro (hown | ⟨j, -, name, ha, hi⟩)
    · obtain ⟨hlt, -⟩ := List.getElem?_eq_some_iff.1 hown
      exact ⟨i, _, .own hnamed hown (Nat.lt_of_lt_of_le hlt hmost) rfl, hown, rfl⟩
    · exact ⟨j, _, .named ha hi, ha, rfl⟩
  · rintro ⟨j, a, hj, ha, rfl⟩
    cases hj with
    | inOrder hunnamed => exact absurd hnamed hunnamed
    | own _ ha' _ hsame =>
      cases ha.symm.trans ha'
      subst hsame
      exact .inl ha
    | named ha' hi =>
      cases ha.symm.trans ha'
      exact .inr ⟨j, (List.getElem?_eq_some_iff.1 ha).1, _, ha, hi⟩

/-! ## Defaults -/

/-- The parameter at a position has neither a value nor a default. -/
def LeftOut (ps : List Parameter) (slots : Slots) (i : Nat) : Prop :=
  ∃ p, ps[i]? = some p ∧ (slots[i]?.join).or p.default = none

theorem leftOut_succ {q : Parameter} {slots : Slots} {i : Nat} :
    LeftOut (q :: ps) slots (i + 1) ↔ LeftOut ps slots.tail i := by
  unfold LeftOut
  rw [List.getElem?_cons_succ, List.getElem?_tail]

/-- Every parameter has a value, or one of them is the first that is left out. -/
theorem complete_cases (ps : List Parameter) (slots : Slots) :
    (∃ bound, complete ps slots = .ok bound ∧ bound.map (·.1) = ps ∧
      ∀ (i : Nat) p v, bound[i]? = some (p, v) → (slots[i]?.join).or p.default = some v) ∨
    ∃ i p, First (LeftOut ps slots) i ∧ ps[i]? = some p ∧
      complete ps slots = .error (.argumentNotMatched p.name) := by
  induction ps generalizing slots with
  | nil => exact .inl ⟨[], rfl, rfl, fun i p v h => by simp at h⟩
  | cons q ps ih =>
    have hhead : slots.head? = slots[0]? := List.head?_eq_getElem?
    unfold complete
    cases hq : (slots.head?.join).or q.default with
    | none =>
      exact .inr ⟨0, q, ⟨⟨q, rfl, hhead ▸ hq⟩, fun k hk => absurd hk (Nat.not_lt_zero k)⟩, rfl, rfl⟩
    | some value =>
      rcases ih slots.tail with ⟨bound, hok, hmap, hvalues⟩ | ⟨i, p, ⟨hi, hbefore⟩, hp, herror⟩
      · refine .inl ⟨(q, value) :: bound, ?_, ?_, fun i p v hv => ?_⟩
        · rw [hok]
          rfl
        · rw [List.map_cons, hmap]
        · cases i with
          | zero =>
            cases hv
            exact hhead ▸ hq
          | succ i =>
            rw [← List.getElem?_tail]
            exact hvalues i p v hv
      · refine .inr ⟨i + 1, p, ⟨?_, fun k hk => ?_⟩, hp, ?_⟩
        · exact leftOut_succ.2 hi
        · cases k with
          | zero =>
            rintro ⟨r, hr, hnone⟩
            cases hr
            rw [← hhead, hq] at hnone
            cases hnone
          | succ k => exact fun hout => hbefore k (Nat.lt_of_succ_lt_succ hk) (leftOut_succ.1 hout)
        · rw [herror]
          rfl

theorem join_eq_none_iff {slots : Slots} {i : Nat} (h : Describes (Placed ps as) ps.length slots) :
    slots[i]?.join = none ↔ ∀ j, ¬GoesTo ps as j i := by
  rw [← Option.not_isSome_iff_eq_none, h.isSome_join]
  constructor
  · intro hfree j hj
    obtain ⟨a, ha⟩ := hj.exists_argument
    exact hfree ⟨a.value, j, a, hj, ha, rfl⟩
  · rintro hfree ⟨_, j, _, hj, -⟩
    exact hfree j hj

theorem leftOut_iff_uncovered {slots : Slots} {i : Nat}
    (h : Describes (Placed ps as) ps.length slots) : LeftOut ps slots i ↔ Uncovered ps as i := by
  simp only [LeftOut, Uncovered, Option.or_eq_none_iff, join_eq_none_iff h, and_comm]

/-- Where the slots hold the values of the arguments, the others are defaults. -/
theorem complete_placed {slots : Slots} (h : Describes (Placed ps as) ps.length slots) :
    (∃ bound, complete ps slots = .ok bound ∧ bound.map (·.1) = ps ∧
      (∀ (i j : Nat) p v a, bound[i]? = some (p, v) → GoesTo ps as j i → as[j]? = some a →
        v = a.value) ∧
      (∀ (i : Nat) p v, bound[i]? = some (p, v) → (∀ j, ¬GoesTo ps as j i) → p.default = some v) ∧
      ∀ i, ¬Uncovered ps as i) ∨
    ∃ i p, First (Uncovered ps as) i ∧ ps[i]? = some p ∧
      complete ps slots = .error (.argumentNotMatched p.name) := by
  rcases complete_cases ps slots with ⟨bound, hok, hmap, hvalues⟩ | ⟨i, p, ⟨hi, hbefore⟩, hp, herror⟩
  · refine .inl ⟨bound, hok, hmap, ?_, ?_, ?_⟩
    · intro i j p v a hv hj ha
      have hslot := (h.slot i a.value).2 ⟨j, a, hj, ha, rfl⟩
      have hvalue := hvalues i p v hv
      rw [hslot] at hvalue
      exact (Option.some.inj hvalue).symm
    · intro i p v hv hnone
      have hvalue := hvalues i p v hv
      rw [(join_eq_none_iff h).2 hnone] at hvalue
      exact hvalue
    · intro i hi
      obtain ⟨p, hp, hnone⟩ := (leftOut_iff_uncovered h).2 hi
      rw [← hmap, List.getElem?_map] at hp
      obtain ⟨⟨_, v⟩, hv, rfl⟩ := Option.map_eq_some_iff.1 hp
      cases hnone.symm.trans (hvalues i _ v hv)
  · refine .inr ⟨i, p, ⟨(leftOut_iff_uncovered h).1 hi, fun k hk => ?_⟩, hp, herror⟩
    exact fun hout => hbefore k hk ((leftOut_iff_uncovered h).2 hout)

/-! ## Binding -/

/-- The arguments are bound as they should be, or there is a reason why they cannot be. -/
def Ends (ps : List Parameter) (as : List Argument) (r : Except Cause (List (Parameter × Value))) :
    Prop :=
  (∃ bound, r = .ok bound ∧ Accepts ps as ∧ Bound ps as bound) ∨
    ∃ cause, r = .error cause ∧ Refusal ps as cause

theorem ends_complete {slots : Slots} (hmost : as.length ≤ ps.length)
    (hfree : ∀ j, ¬Contested ps as j) (hright : ∀ k, ¬Wrong ps as k)
    (h : Describes (Placed ps as) ps.length slots)
    (haccepts : (∀ i, ¬Uncovered ps as i) → Accepts ps as)
    (hrefused : ∀ i p, First (Uncovered ps as) i → ps[i]? = some p →
      Refusal ps as (.argumentNotMatched p.name)) : Ends ps as (complete ps slots) := by
  rcases complete_placed h with
    ⟨bound, hok, hmap, hgiven, hothers, hcovered⟩ | ⟨i, p, hfirst, hp, herror⟩
  · refine .inl ⟨bound, hok, haccepts hcovered, hmap, fun j hj => ?_, ?_, hgiven, hothers⟩
    · obtain ⟨i, hi⟩ := exists_goesTo hmost hright hj
      exact ⟨i, hi, fun i' hi' => hi'.unique hi⟩
    · exact fun j j' i => GoesTo.injective hfree hright
  · exact .inr ⟨_, herror, hrefused i p hfirst hp⟩

theorem ends_byPosition (hmost : as.length ≤ ps.length) (hnamed : ¬SomeNamed as) :
    Ends ps as (byPosition ps as (List.replicate ps.length none) >>= complete ps) := by
  have hcount : (ps.filter (!·.hasDefault)).length = required ps :=
    List.countP_eq_length_filter.symm
  rw [byPosition, hcount]
  split
  · next hfew => exact .inr ⟨_, rfl, .tooFew hmost hnamed hfew⟩
  · next henough =>
    have hleast := Nat.le_of_not_lt henough
    refine ends_complete hmost (fun _ h => hnamed h.someNamed) (fun _ h => hnamed h.someNamed)
      (describes_fill hnamed) (fun _ => (accepts_iff_of_unnamed hnamed).2 ⟨hmost, hleast⟩) ?_
    intro i p hfirst
    exact absurd hfirst.1 (not_uncovered_of_required_le hnamed hleast i)

theorem ends_byName (hmost : as.length ≤ ps.length) (hnamed : SomeNamed as) :
    Ends ps as (byName ps as (List.replicate ps.length none) >>= complete ps) := by
  have hstart : Describes (fun i v => i < 0 ∧ as[i]? = some ⟨none, v⟩) ps.length
      (List.replicate ps.length none) := (Describes.empty _).congr (by simp)
  unfold byName
  rcases unnamed_cases hmost List.drop_zero hstart (fun _ h => absurd h (Nat.not_lt_zero _)) with
    ⟨own, hown, hplaced, hfree⟩ | ⟨j, p, hfirst, hp, herror⟩
  · rw [hown]
    have hplaced : Describes (PlacedBefore ps as 0) ps.length own :=
      hplaced.congr fun i v => by simp [PlacedBefore]
    show Ends ps as (named ps as own >>= complete ps)
    rcases named_cases List.drop_zero hfree hplaced (fun _ h => absurd h (Nat.not_lt_zero _)) with
      ⟨slots, hslots, hplaced, hright⟩ | ⟨k, name, value, hfirst, ha, hunknown | hrepeated⟩
    · rw [hslots]
      refine ends_complete hmost hfree hright
        (hplaced.congr fun i v => placed_iff hmost hnamed) (fun hcovered => ?_) fun i p => ?_
      · exact (accepts_iff_of_named hnamed).2 ⟨hmost, hfree, hright, hcovered⟩
      · exact .uncovered hmost hnamed hfree hright
    · obtain ⟨hunknown, herror⟩ := hunknown
      rw [herror]
      exact .inr ⟨_, rfl, .unknown hmost hfree hfirst ha hunknown⟩
    · obtain ⟨⟨i, hknown⟩, herror⟩ := hrepeated
      rw [herror]
      exact .inr ⟨_, rfl, .repeated hmost hfree hfirst ha hknown⟩
  · rw [herror]
    exact .inr ⟨_, rfl, .contested hmost hfirst hp⟩

theorem ends_bindCauses (ps : List Parameter) (as : List Argument) :
    Ends ps as (bindCauses ps as) := by
  unfold bindCauses
  split
  · next hmany => exact .inr ⟨_, rfl, .tooMany hmany⟩
  · next hmost =>
    have hmost := Nat.le_of_not_lt hmost
    dsimp only
    split
    · next hnamed => exact ends_byName hmost (List.any_eq_true.1 hnamed)
    · next hnamed => exact ends_byPosition hmost (mt List.any_eq_true.2 hnamed)

/-- **Arguments are bound by the rule.** They are bound exactly if they can be. The result lists the
parameters in order, each with the value of the argument that goes to it or with its default, and every
argument goes to a parameter of its own. Otherwise the first reason to refuse them is reported. -/
theorem bindArguments_exact (ps : List Parameter) (as : List Argument) :
    ((∃ bound, bindArguments ps as = .ok bound) ↔ Accepts ps as) ∧
    (∀ bound, bindArguments ps as = .ok bound → Bound ps as bound) ∧
    ∀ e, bindArguments ps as = .error e ↔ ∃ cause, Refusal ps as cause ∧ e = .of cause := by
  unfold bindArguments
  rcases ends_bindCauses ps as with ⟨bound, hok, haccepts, hbound⟩ | ⟨cause, herror, hrefused⟩
  · rw [hok]
    refine ⟨iff_of_true ⟨bound, rfl⟩ haccepts, fun bound' h => ?_, fun e => ⟨fun h => ?_, ?_⟩⟩
    · cases h
      exact hbound
    · cases h
    · rintro ⟨cause, hrefused, -⟩
      exact absurd haccepts hrefused.not_accepts
  · rw [herror]
    refine ⟨iff_of_false ?_ hrefused.not_accepts, fun bound h => ?_, fun e => ⟨fun h => ?_, ?_⟩⟩
    · rintro ⟨bound, h⟩
      cases h
    · cases h
    · cases h
      exact ⟨cause, hrefused, rfl⟩
    · rintro ⟨cause', hrefused', rfl⟩
      rw [hrefused.unique hrefused']
      rfl

/-- The argument without a name takes the position of `x`. So one for `z` can stand beside it, and one for
`x` cannot. -/
theorem bindArguments_exact_mixed :
    let ps : List Parameter := [⟨"x", false, .any, none⟩, ⟨"y", true, .any, some (.int 7)⟩,
      ⟨"z", false, .any, none⟩]
    let as : List Argument := [⟨none, .int 1⟩, ⟨some "z", .int 2⟩]
    Accepts ps as ∧ Bound ps as [(ps[0], .int 1), (ps[1], .int 7), (ps[2], .int 2)] ∧
      Refusal ps [⟨none, .int 1⟩, ⟨some "x", .int 2⟩] (.duplicateBinding "x") := by
  intro ps as
  obtain ⟨haccepts, hbound, -⟩ := bindArguments_exact ps as
  obtain ⟨cause, hrefused, hcause⟩ :=
    ((bindArguments_exact ps [⟨none, .int 1⟩, ⟨some "x", .int 2⟩]).2.2 _).1 rfl
  cases hcause
  exact ⟨haccepts.1 ⟨_, rfl⟩, hbound _ rfl, hrefused⟩

end Binding

end TreeScript
