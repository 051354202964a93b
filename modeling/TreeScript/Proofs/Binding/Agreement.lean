import TreeScript.Proofs.Binding.Filling

/-!
# Arguments by position and by name

The result of binding depends on the arguments only through the values that are placed at the parameters
(`Binding.bindArguments_of_placed`). Where all arguments have names, the places come from the names alone,
so their order does not matter. Where none has a name, they are placed as if each had the name of the
parameter that is taken in its turn (`Binding.nameInOrder`).
-/

namespace TreeScript.Binding

variable {ps : List Parameter} {as as' : List Argument} {bound bound' : List (Parameter × Value)}

/-! ## Places decide -/

/-- The same values at the same places make the same result. -/
theorem Bound.eq_of_placed (h : Bound ps as bound) (h' : Bound ps as' bound')
    (hplaced : ∀ i v, Placed ps as i v ↔ Placed ps as' i v) : bound = bound' := by
  have hparameters : bound.map (·.1) = bound'.map (·.1) := h.parameters.trans h'.parameters.symm
  refine List.ext_getElem (by simpa using congrArg List.length hparameters) fun i hi hi' => ?_
  rcases hi : bound[i] with ⟨p, v⟩
  rcases hi' : bound'[i] with ⟨q, w⟩
  have hget : bound[i]? = some (p, v) := List.getElem?_eq_some_iff.2 ⟨_, hi⟩
  have hget' : bound'[i]? = some (q, w) := List.getElem?_eq_some_iff.2 ⟨_, hi'⟩
  have hpq : p = q := by
    have hat := congrArg (·[i]?) hparameters
    simpa [hget, hget'] using hat
  subst hpq
  by_cases hgoes : ∃ j, GoesTo ps as j i
  · obtain ⟨j, hj⟩ := hgoes
    obtain ⟨a, ha⟩ := hj.exists_argument
    obtain ⟨j', a', hj', ha', hvalue⟩ := (hplaced i a.value).1 ⟨j, a, hj, ha, rfl⟩
    rw [h.given i j p v a hget hj ha, h'.given i j' p w a' hget' hj' ha', hvalue]
  · have hnone' : ∀ j, ¬GoesTo ps as' j i := by
      intro j hj
      obtain ⟨a, ha⟩ := hj.exists_argument
      obtain ⟨k, -, hk, -⟩ := (hplaced i a.value).2 ⟨j, a, hj, ha, rfl⟩
      exact hgoes ⟨k, hk⟩
    have hdefault := h.others i p v hget (not_exists.1 hgoes)
    cases hdefault.symm.trans (h'.others i p w hget' hnone')
    rfl

theorem accepts_of_bindArguments (h : bindArguments ps as = .ok bound) :
    Accepts ps as ∧ Bound ps as bound := by
  unfold bindArguments at h
  rcases ends_bindCauses ps as with ⟨bound', hok, haccepts, hbound⟩ | ⟨cause, herror, -⟩
  · rw [hok] at h
    cases h
    exact ⟨haccepts, hbound⟩
  · rw [herror] at h
    cases h

theorem bindArguments_of_placed (h : bindArguments ps as = .ok bound) (haccepts : Accepts ps as')
    (hplaced : ∀ i v, Placed ps as i v ↔ Placed ps as' i v) : bindArguments ps as' = .ok bound := by
  obtain ⟨-, hbound⟩ := accepts_of_bindArguments h
  unfold bindArguments
  rcases ends_bindCauses ps as' with ⟨bound', hok, -, hbound'⟩ | ⟨cause, -, hrefused⟩
  · rw [hok, hbound.eq_of_placed hbound' hplaced]
    rfl
  · exact absurd haccepts hrefused.not_accepts

theorem exists_goesTo_iff {i : Nat} : (∃ j, GoesTo ps as j i) ↔ ∃ v, Placed ps as i v := by
  constructor
  · rintro ⟨j, hj⟩
    obtain ⟨a, ha⟩ := hj.exists_argument
    exact ⟨a.value, j, a, hj, ha, rfl⟩
  · rintro ⟨_, j, _, hj, -⟩
    exact ⟨j, hj⟩

/-! ## Arguments that all have names -/

/-- Every argument has a name. -/
def AllNamed (as : List Argument) : Prop := ∀ a ∈ as, a.isNamed = true

theorem AllNamed.name_ne_none (h : AllNamed as) {j : Nat} {value : Value} :
    as[j]? ≠ some ⟨none, value⟩ := fun ha => by
  have := h _ (List.mem_of_getElem? ha)
  cases this

/-- The places come from the names alone. -/
theorem AllNamed.placed_iff (h : AllNamed as) {i : Nat} {v : Value} :
    Placed ps as i v ↔ ∃ name, ⟨some name, v⟩ ∈ as ∧ First (IsCalled ps name) i := by
  constructor
  · rintro ⟨j, a, hj, ha, rfl⟩
    cases hj with
    | inOrder hunnamed hlt =>
      exact absurd ⟨_, List.getElem_mem hlt, h _ (List.getElem_mem hlt)⟩ hunnamed
    | own _ ha' => exact absurd ha' h.name_ne_none
    | @named name value ha' hi =>
      cases ha.symm.trans ha'
      exact ⟨name, List.mem_of_getElem? ha, hi⟩
  · rintro ⟨name, hmem, hi⟩
    obtain ⟨j, hj⟩ := List.mem_iff_getElem?.1 hmem
    exact ⟨j, _, .named hj hi, hj, rfl⟩

/-- Arguments with names can be bound if there are parameters of these names, no name is given twice, and
every parameter without a default has its argument. -/
theorem AllNamed.accepts (h : AllNamed as) (hmost : as.length ≤ ps.length) (hne : as ≠ [])
    (hknown : ∀ a ∈ as, ∀ name, a.name = some name → ∃ p ∈ ps, p.name = name)
    (honce : as.Pairwise fun a b => ∀ name, a.name = some name → b.name ≠ some name)
    (hcovered : ∀ (i : Nat) p, ps[i]? = some p → (∃ v, Placed ps as i v) ∨ p.hasDefault = true) :
    Accepts ps as := by
  obtain ⟨a, ha⟩ := List.exists_mem_of_ne_nil as hne
  refine .byName hmost ⟨a, ha, h a ha⟩ (fun j value p hj => absurd hj h.name_ne_none) hknown honce ?_
  intro i p hp
  rw [exists_goesTo_iff]
  exact hcovered i p hp

theorem AllNamed.perm (h : AllNamed as) (hperm : as.Perm as') : AllNamed as' :=
  fun a ha => h a (hperm.mem_iff.2 ha)

theorem AllNamed.placed_perm (h : AllNamed as) (hperm : as.Perm as') (i : Nat) (v : Value) :
    Placed ps as i v ↔ Placed ps as' i v := by
  rw [h.placed_iff, (h.perm hperm).placed_iff]
  exact exists_congr fun name => and_congr_left fun _ => hperm.mem_iff

theorem AllNamed.accepts_perm (h : AllNamed as) (hperm : as.Perm as') (haccepts : Accepts ps as) :
    Accepts ps as' := by
  cases haccepts with
  | inOrder hmost hunnamed hleast =>
    -- Then there are no arguments at all.
    have hnil : as = [] := List.eq_nil_iff_forall_not_mem.2 fun a ha => by
      have hnamed := h a ha
      rw [Argument.isNamed, hunnamed a ha] at hnamed
      cases hnamed
    subst hnil
    rw [hperm.nil_eq.symm]
    exact .inOrder hmost hunnamed hleast
  | byName hmost hnamed _ hknown honce hcovered =>
    have hsymm {a b : Argument} (hab : ∀ name, a.name = some name → b.name ≠ some name) :
        ∀ name, b.name = some name → a.name ≠ some name := fun name hb ha => hab name ha hb
    refine (h.perm hperm).accepts (hperm.length_eq ▸ hmost) ?_
      (fun a ha => hknown a (hperm.mem_iff.2 ha)) ((hperm.pairwise_iff hsymm).1 honce) ?_
    · rintro rfl
      obtain ⟨a, ha, -⟩ := hnamed
      cases hperm.mem_iff.1 ha
    · intro i p hp
      refine (hcovered i p hp).imp_left fun hgoes => ?_
      obtain ⟨v, hv⟩ := exists_goesTo_iff.1 hgoes
      exact ⟨v, (h.placed_perm hperm i v).1 hv⟩

/-! ## Arguments in order -/

/-- The parameters in the order in which arguments without names are taken. -/
def taken (ps : List Parameter) : List Parameter :=
  ps.filter (!·.hasDefault) ++ ps.filter (·.hasDefault)

/-- Gives every argument the name of the parameter that is taken in its turn. -/
def nameInOrder (ps : List Parameter) (as : List Argument) : List Argument :=
  List.zipWith (fun p a => ⟨some p.name, a.value⟩) (taken ps) as

theorem taken_perm (ps : List Parameter) : (taken ps).Perm ps := by
  refine List.perm_append_comm.trans ?_
  exact List.filter_append_perm (·.hasDefault) ps

/-- The ranks number the parameters in the order in which they are taken. -/
theorem getElem?_taken {j : Nat} {p : Parameter} :
    (taken ps)[j]? = some p ↔ ∃ i, ps[i]? = some p ∧ rank ps i = j := by
  -- Both orders come from one list of numbered parameters.
  let numbered := ps.zipIdx.filter (!·.1.hasDefault) ++ ps.zipIdx.filter (·.1.hasDefault)
  have htaken : taken ps = numbered.map (·.1) := by
    have hfilter (f : Parameter → Bool) :
        (ps.zipIdx.filter fun e => f e.1).map (·.1) = ps.filter f := by
      conv_rhs => rw [← List.zipIdx_map_fst 0 ps, List.filter_map]
      rfl
    rw [List.map_append, hfilter fun p => !p.hasDefault, hfilter fun p => p.hasDefault]
    rfl
  have horder : fillingOrder ps = numbered.map (·.2) := rfl
  have hentry {p : Parameter} {i : Nat} (h : numbered[j]? = some (p, i)) : ps[i]? = some p := by
    have hmem : (p, i) ∈ ps.zipIdx := by
      rcases List.mem_append.1 (List.mem_of_getElem? h) with h | h
      · exact List.mem_of_mem_filter h
      · exact List.mem_of_mem_filter h
    exact List.mem_zipIdx_iff_getElem?.1 hmem
  constructor
  · intro h
    rw [htaken, List.getElem?_map] at h
    obtain ⟨⟨q, i⟩, hj, rfl⟩ := Option.map_eq_some_iff.1 h
    have hrank : (fillingOrder ps)[j]? = some i := by rw [horder, List.getElem?_map, hj]; rfl
    exact ⟨i, hentry hj, (getElem?_fillingOrder.1 hrank).2⟩
  · rintro ⟨i, hp, hrank⟩
    have hj := getElem?_fillingOrder.2 ⟨(List.getElem?_eq_some_iff.1 hp).1, hrank⟩
    rw [horder, List.getElem?_map] at hj
    obtain ⟨⟨q, i⟩, hq, rfl⟩ := Option.map_eq_some_iff.1 hj
    rw [htaken, List.getElem?_map, hq]
    exact (hentry hq).symm.trans hp

theorem getElem?_nameInOrder {j : Nat} {a : Argument} :
    (nameInOrder ps as)[j]? = some a ↔
      ∃ p b, (taken ps)[j]? = some p ∧ as[j]? = some b ∧ ⟨some p.name, b.value⟩ = a := by
  rw [nameInOrder, List.getElem?_zipWith_eq_some]

theorem allNamed_nameInOrder (ps : List Parameter) (as : List Argument) :
    AllNamed (nameInOrder ps as) := by
  intro a ha
  obtain ⟨j, hj⟩ := List.mem_iff_getElem?.1 ha
  obtain ⟨p, b, -, -, rfl⟩ := getElem?_nameInOrder.1 hj
  rfl

/-- Where there is a parameter for every argument, none is left out. -/
theorem length_nameInOrder (hmost : as.length ≤ ps.length) :
    (nameInOrder ps as).length = as.length := by
  rw [nameInOrder, List.length_zipWith, (taken_perm ps).length_eq, Nat.min_eq_right hmost]

theorem values_nameInOrder (hmost : as.length ≤ ps.length) :
    (nameInOrder ps as).map (·.value) = as.map (·.value) := by
  refine List.ext_getElem? fun j => ?_
  have hlength := length_nameInOrder hmost
  rw [List.getElem?_map, List.getElem?_map]
  cases hj : (nameInOrder ps as)[j]? with
  | none =>
    rw [List.getElem?_eq_none_iff, hlength] at hj
    rw [List.getElem?_eq_none hj]
  | some a =>
    obtain ⟨p, b, -, hb, rfl⟩ := getElem?_nameInOrder.1 hj
    rw [hb]
    rfl

section Distinct

variable (hdistinct : (ps.map (·.name)).Nodup)

include hdistinct

/-- A name is that of one parameter. -/
theorem IsCalled.index_eq {name : String} {i k : Nat} (hi : IsCalled ps name i)
    (hk : IsCalled ps name k) : i = k := by
  obtain ⟨p, hp, rfl⟩ := hi
  obtain ⟨q, hq, hname⟩ := hk
  have hlt : i < (ps.map (·.name)).length := by
    rw [List.length_map]
    exact (List.getElem?_eq_some_iff.1 hp).1
  refine (List.getElem?_inj hlt hdistinct).1 ?_
  rw [List.getElem?_map, List.getElem?_map, hp, hq]
  exact congrArg some hname.symm

theorem first_called_iff {name : String} {i : Nat} :
    First (IsCalled ps name) i ↔ IsCalled ps name i :=
  ⟨fun h => h.1, fun h => ⟨h, fun _ hk hcalled => Nat.ne_of_lt hk (hcalled.index_eq hdistinct h)⟩⟩

/-- An argument is placed in its turn where it is placed by the name of the parameter. -/
theorem placed_nameInOrder (hunnamed : ¬SomeNamed as) (i : Nat) (v : Value) :
    Placed ps as i v ↔ Placed ps (nameInOrder ps as) i v := by
  rw [(allNamed_nameInOrder ps as).placed_iff]
  simp only [first_called_iff hdistinct]
  constructor
  · rintro ⟨j, b, hj, hb, rfl⟩
    obtain ⟨-, hi, hrank⟩ := (goesTo_iff_rank hunnamed).1 hj
    have hp := List.getElem?_eq_getElem hi
    refine ⟨ps[i].name, List.mem_of_getElem? (i := j) ?_, ps[i], hp, rfl⟩
    exact getElem?_nameInOrder.2 ⟨ps[i], b, getElem?_taken.2 ⟨i, hp, hrank⟩, hb, rfl⟩
  · rintro ⟨name, hmem, hi⟩
    obtain ⟨j, hj⟩ := List.mem_iff_getElem?.1 hmem
    obtain ⟨p, b, htaken, hb, heq⟩ := getElem?_nameInOrder.1 hj
    cases heq
    obtain ⟨k, hk, hrank⟩ := getElem?_taken.1 htaken
    have hik : i = k := hi.index_eq hdistinct ⟨p, hk, rfl⟩
    subst hik
    have hlt := (List.getElem?_eq_some_iff.1 hb).1
    exact ⟨j, b, .inOrder hunnamed hlt hi.lt hrank, hb, rfl⟩

theorem accepts_nameInOrder (hunnamed : ¬SomeNamed as) (hne : as ≠ []) (haccepts : Accepts ps as) :
    Accepts ps (nameInOrder ps as) := by
  obtain ⟨hmost, hleast⟩ := (accepts_iff_of_unnamed hunnamed).1 haccepts
  have hlength := length_nameInOrder hmost
  refine (allNamed_nameInOrder ps as).accepts (hlength ▸ hmost) ?_ ?_ ?_ ?_
  · intro hnil
    rw [hnil] at hlength
    exact hne (List.length_eq_zero_iff.1 hlength.symm)
  · intro a ha name hname
    obtain ⟨j, hj⟩ := List.mem_iff_getElem?.1 ha
    obtain ⟨p, b, htaken, -, rfl⟩ := getElem?_nameInOrder.1 hj
    cases hname
    exact ⟨p, (taken_perm ps).mem_iff.1 (List.mem_of_getElem? htaken), rfl⟩
  · rw [List.pairwise_iff_getElem]
    intro j k hj hk hjk name hname hname'
    obtain ⟨p, _, hp, -, heq⟩ := getElem?_nameInOrder.1 (getElem?_of_name hj hname)
    obtain ⟨q, _, hq, -, heq'⟩ := getElem?_nameInOrder.1 (getElem?_of_name hk hname')
    have hsame : p.name = q.name := by
      simp only [Argument.mk.injEq, Option.some.injEq] at heq heq'
      exact heq.1.trans heq'.1.symm
    obtain ⟨i, hi, hrank⟩ := getElem?_taken.1 hp
    obtain ⟨i', hi', hrank'⟩ := getElem?_taken.1 hq
    have hindex : i = i' := IsCalled.index_eq hdistinct ⟨p, hi, rfl⟩ ⟨q, hi', hsame.symm⟩
    subst hindex
    omega
  · intro i p hp
    cases hdefault : p.hasDefault with
    | true => exact .inr rfl
    | false =>
      have hlt := Nat.lt_of_lt_of_le (rank_lt_required hp hdefault) hleast
      have hgoes : GoesTo ps as (rank ps i) i :=
        .inOrder hunnamed hlt (List.getElem?_eq_some_iff.1 hp).1 rfl
      obtain ⟨v, hv⟩ := exists_goesTo_iff.1 ⟨_, hgoes⟩
      exact .inl ⟨v, (placed_nameInOrder hdistinct hunnamed i v).1 hv⟩

end Distinct

/-! ## Agreement -/

/-- **Arguments by name agree with one another and with arguments by position.** Where arguments that all
have names can be bound, they can be bound in every order, with the same result. Where arguments without
names can be bound, they can be bound with the names of the parameters that are taken in their turns as
well, again with the same result. -/
theorem bindArguments_agree (ps : List Parameter) (hdistinct : (ps.map (·.name)).Nodup) :
    (∀ as as' bound, (∀ a ∈ as, a.isNamed = true) → as.Perm as' →
      bindArguments ps as = .ok bound → bindArguments ps as' = .ok bound) ∧
    ∀ as bound, (∀ a ∈ as, a.isNamed = false) → bindArguments ps as = .ok bound →
      (nameInOrder ps as).map (·.value) = as.map (·.value) ∧
        bindArguments ps (nameInOrder ps as) = .ok bound := by
  constructor
  · intro as as' bound hnamed hperm h
    have hnamed : AllNamed as := hnamed
    obtain ⟨haccepts, -⟩ := accepts_of_bindArguments h
    exact bindArguments_of_placed h (hnamed.accepts_perm hperm haccepts) (hnamed.placed_perm hperm)
  · intro as bound hunnamed h
    have hunnamed : ¬SomeNamed as := by
      rintro ⟨a, ha, hname⟩
      exact Bool.false_ne_true ((hunnamed a ha).symm.trans hname)
    obtain ⟨haccepts, -⟩ := accepts_of_bindArguments h
    refine ⟨values_nameInOrder haccepts.length_le, ?_⟩
    by_cases hnil : as = []
    · subst hnil
      rw [nameInOrder, List.zipWith_nil_right]
      exact h
    · exact bindArguments_of_placed h (accepts_nameInOrder hdistinct hunnamed hnil haccepts)
        (placed_nameInOrder hdistinct hunnamed)

/-- The parameter with a default stands before those without, so the first argument is for the second
parameter. -/
theorem bindArguments_agree_defaultFirst :
    let ps : List Parameter := [⟨"sep", false, .any, some (.int 0)⟩, ⟨"from", false, .any, none⟩,
      ⟨"to", true, .any, none⟩]
    let as : List Argument := [⟨none, .int 1⟩, ⟨none, .int 2⟩, ⟨none, .int 3⟩]
    let bound := [(ps[0], Value.int 3), (ps[1], .int 1), (ps[2], .int 2)]
    bindArguments ps as = .ok bound ∧
      bindArguments ps [⟨some "from", .int 1⟩, ⟨some "to", .int 2⟩, ⟨some "sep", .int 3⟩] = .ok bound ∧
      bindArguments ps [⟨some "sep", .int 3⟩, ⟨some "from", .int 1⟩, ⟨some "to", .int 2⟩] = .ok bound := by
  intro ps as bound
  obtain ⟨hperm, hposition⟩ := bindArguments_agree ps (by decide)
  have hpositional : bindArguments ps as = .ok bound := rfl
  obtain ⟨-, hnamed⟩ := hposition as bound (by simp [as, Argument.isNamed]) hpositional
  have hrotated : (nameInOrder ps as).Perm
      [⟨some "sep", .int 3⟩, ⟨some "from", .int 1⟩, ⟨some "to", .int 2⟩] :=
    @List.perm_append_comm Argument [⟨some "from", .int 1⟩, ⟨some "to", .int 2⟩] [⟨some "sep", .int 3⟩]
  exact ⟨hpositional, hnamed, hperm _ _ _ (allNamed_nameInOrder ps as) hrotated hnamed⟩

end TreeScript.Binding
