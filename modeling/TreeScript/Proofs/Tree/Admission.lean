import TreeScript.Program
import TreeScript.Proofs.Table
import TreeScript.Proofs.Tree.Preorder

/-!
# Which trees are programs

A tree is a program if its outermost node is a program node and no two of its nodes share an id
(`Program.check_eq_ok_iff`). The outermost node is looked at first. After that the error is about the first
node, in recursive order, whose id occurs before it (`Node.FirstRepeated`).
-/

namespace TreeScript

namespace Node

variable {l : List Node} {m m' : Node} {seen : KeySet Nat}

theorem repeated?_eq_none_iff :
    repeated? seen l = none ↔ (l.map (·.id)).Nodup ∧ ∀ n ∈ l, ¬seen.contains n.id := by
  induction l generalizing seen with
  | nil => simp [repeated?]
  | cons n l ih =>
    rw [repeated?]
    by_cases hseen : seen.contains n.id
    · simp [hseen]
    · simp only [hseen, Bool.false_eq_true, ↓reduceIte, ih, KeySet.contains_add, List.map_cons, List.nodup_cons,
        List.mem_cons, List.mem_map, forall_eq_or_imp]
      grind

/-- A node of a list whose id occurs before it, with different ids up to there. -/
def FirstRepeated (l : List Node) (m : Node) : Prop :=
  ∃ before after, l = before ++ m :: after ∧ (before.map (·.id)).Nodup ∧ m.id ∈ before.map (·.id)

theorem repeated?_eq_some (h : repeated? seen l = some m) :
    ∃ before after, l = before ++ m :: after ∧ (before.map (·.id)).Nodup ∧
      (∀ n ∈ before, ¬seen.contains n.id) ∧ (seen.contains m.id ∨ m.id ∈ before.map (·.id)) := by
  induction l generalizing seen with
  | nil => cases h
  | cons n l ih =>
    rw [repeated?] at h
    split at h
    · next hseen =>
      cases h
      exact ⟨[], l, rfl, .nil, by simp, .inl hseen⟩
    · next hseen =>
      obtain ⟨before, after, rfl, hnodup, hfresh, hm⟩ := ih h
      refine ⟨n :: before, after, rfl, ?_, ?_, ?_⟩
      all_goals simp only [KeySet.contains_add] at hfresh hm
      all_goals grind

theorem firstRepeated_of_repeated? (h : repeated? ∅ l = some m) : FirstRepeated l m := by
  obtain ⟨before, after, hl, hnodup, -, hm⟩ := repeated?_eq_some h
  exact ⟨before, after, hl, hnodup, hm.resolve_left (KeySet.not_contains_empty _)⟩

/-- There is one first repetition. -/
theorem FirstRepeated.unique (h : FirstRepeated l m) (h' : FirstRepeated l m') : m = m' := by
  obtain ⟨before, after, rfl, hnodup, hm⟩ := h
  obtain ⟨before', after', hl, hnodup', hm'⟩ := h'
  rcases List.append_eq_append_iff.1 hl with ⟨more, rfl, hrest⟩ | ⟨more, rfl, hrest⟩
  · cases more with
    | nil => exact (List.cons.inj hrest).1
    | cons x more =>
      cases (List.cons.inj hrest).1
      simp [List.nodup_append] at hnodup'
      grind
  · cases more with
    | nil => exact (List.cons.inj hrest).1.symm
    | cons x more =>
      cases (List.cons.inj hrest).1
      simp [List.nodup_append] at hnodup
      grind

theorem repeated?_eq_some_iff : repeated? ∅ l = some m ↔ FirstRepeated l m := by
  refine ⟨firstRepeated_of_repeated?, fun h => ?_⟩
  cases hrepeated : repeated? ∅ l with
  | some m' => rw [h.unique (firstRepeated_of_repeated? hrepeated)]
  | none =>
    obtain ⟨before, after, rfl, -, hm⟩ := h
    have hnodup := (repeated?_eq_none_iff.1 hrepeated).1
    rw [List.map_append, List.nodup_append] at hnodup
    exact absurd rfl (hnodup.2.2 _ hm m.id (by simp))

end Node

namespace Program

variable {t m : Node}

theorem check_eq_ok_iff : check t = .ok t ↔ t.isProgram ∧ t.UniqueIds := by
  rw [Node.uniqueIds_iff, check]
  cases hrepeated : Node.repeated? ∅ t.descendants with
  | none =>
    have hnodup := (Node.repeated?_eq_none_iff.1 hrepeated).1
    by_cases hprogram : t.isProgram <;> simp [hprogram, hnodup]
  | some m =>
    have hnodup : ¬(t.descendants.map (·.id)).Nodup := by
      intro hnodup
      rw [Node.repeated?_eq_none_iff.2 ⟨hnodup, fun _ _ => KeySet.not_contains_empty _⟩] at hrepeated
      cases hrepeated
    by_cases hprogram : t.isProgram <;> simp [hprogram, hnodup]

theorem check_of_not_program (h : t.isProgram = false) :
    check t = .error ((Error.of .programExpected).located t.span) := by
  simp [check, h]

theorem check_of_firstRepeated (h : t.isProgram) (hm : Node.FirstRepeated t.descendants m) :
    check t = .error ((Error.of (.nodeIdRepeated m.id)).located m.span) := by
  rw [check, if_pos h, Node.repeated?_eq_some_iff.2 hm]

theorem exists_firstRepeated (h : ¬t.UniqueIds) : ∃ m, Node.FirstRepeated t.descendants m := by
  rw [Node.uniqueIds_iff] at h
  cases hrepeated : Node.repeated? ∅ t.descendants with
  | none => exact absurd (Node.repeated?_eq_none_iff.1 hrepeated).1 h
  | some m => exact ⟨m, Node.firstRepeated_of_repeated? hrepeated⟩

variable {text : String}

theorem parse_of_read (h : Node.read? text = some t) : parse text = check t := by
  rw [parse, h]

/-- **Admission.** A text that holds a tree is a program exactly if the outermost node is a program node and no
two stored nodes share an id. If the outermost node is no program node, the error says so and is placed there.
Otherwise it gives the id and the span of the first node, in recursive order, whose id occurs before it. The
walk that looks for it goes through the nodes in that order, and meets every stored node once. -/
theorem parse_exact (h : Node.read? text = some t) :
    (parse text = .ok t ↔ t.isProgram ∧ t.UniqueIds) ∧
    (t.isProgram = false → parse text = .error ((Error.of .programExpected).located t.span)) ∧
    (t.isProgram → ¬t.UniqueIds → ∃ m, Node.FirstRepeated t.preorder m ∧
      parse text = .error ((Error.of (.nodeIdRepeated m.id)).located m.span)) ∧
    t.descendants = t.preorder ∧
    t.addresses.Nodup ∧ (∀ a, a ∈ t.addresses ↔ (t.at? a).isSome) ∧
    t.addresses.map t.at? = t.descendants.map some := by
  rw [parse_of_read h]
  refine ⟨check_eq_ok_iff, check_of_not_program, ?_, t.descendants_eq_preorder, t.addresses_exact⟩
  intro hprogram hrepeated
  obtain ⟨m, hm⟩ := exists_firstRepeated hrepeated
  exact ⟨m, t.descendants_eq_preorder ▸ hm, check_of_firstRepeated hprogram hm⟩

/-- The message and the span of the error of a text that is no program. -/
def complaint? (text : String) : Option (String × Option Span) :=
  match parse text with
  | .ok _ => none
  | .error e => some (e.message, e.span)

/-- A program whose returned literal has the id of its statement. -/
def returningTwice : String :=
  "\x7b\"id\":1,\"kind\":\"program\",\"statements\":[\x7b\"id\":2,\"kind\":\"return\",\"value\":" ++
    "\x7b\"kind\":\"literal\",\"value\":5,\"id\":2,\"span\":" ++
    "\x7b\"start\":\x7b\"line\":2,\"column\":3\x7d,\"end\":\x7b\"line\":2,\"column\":3\x7d\x7d\x7d\x7d]\x7d"

/-- The second node with the id 2 is reported. -/
theorem parse_exact_returningTwice :
    ∃ t, Node.read? returningTwice = some t ∧ parse returningTwice ≠ .ok t ∧
      ∃ m, Node.FirstRepeated t.preorder m ∧ m.span = .point 2 3 ∧
        parse returningTwice = .error ((Error.of (.nodeIdRepeated m.id)).located m.span) := by
  have hshape : (Node.read? returningTwice).map (fun t => (t.isProgram, t.descendants.map (·.id))) =
      some (true, [1, 2, 2]) := by decide +kernel
  have hcomplaint : complaint? returningTwice =
      some ("Node id 2 is used more than once.", some (.point 2 3)) := by decide +kernel
  obtain ⟨t, ht, hshape⟩ := Option.map_eq_some_iff.1 hshape
  obtain ⟨hprogram, hids⟩ := Prod.mk.inj hshape
  have hrepeated : ¬t.UniqueIds := by
    rw [Node.uniqueIds_iff, hids]
    decide
  obtain ⟨hok, -, hfirst, -⟩ := parse_exact ht
  obtain ⟨m, hm, hparse⟩ := hfirst hprogram hrepeated
  refine ⟨t, ht, fun h => hrepeated (hok.1 h).2, m, hm, ?_, hparse⟩
  rw [complaint?, hparse] at hcomplaint
  exact Option.some.inj (Prod.mk.inj (Option.some.inj hcomplaint)).2

/-- A block whose statement has its own id. -/
def blockTwice : String :=
  "\x7b\"id\":1,\"kind\":\"block\",\"statements\":[\x7b\"id\":1,\"kind\":\"break\",\"span\":" ++
    "\x7b\"start\":\x7b\"line\":2,\"column\":3\x7d,\"end\":\x7b\"line\":2,\"column\":3\x7d\x7d\x7d]\x7d"

/-- A repeated id goes unreported if the outermost node is no program node. -/
theorem parse_unreported_blockTwice :
    ∃ t, Node.read? blockTwice = some t ∧ ¬t.UniqueIds ∧
      parse blockTwice = .error ((Error.of .programExpected).located .origin) ∧
      ¬∃ m, Node.FirstRepeated t.preorder m ∧
        parse blockTwice = .error ((Error.of (.nodeIdRepeated m.id)).located m.span) := by
  have hshape : (Node.read? blockTwice).map (fun t => (t.isProgram, t.span, t.descendants.map (·.id))) =
      some (false, .origin, [1, 1]) := by decide +kernel
  obtain ⟨t, ht, hshape⟩ := Option.map_eq_some_iff.1 hshape
  obtain ⟨hprogram, hshape⟩ := Prod.mk.inj hshape
  obtain ⟨hspan, hids⟩ := Prod.mk.inj hshape
  have hparse : parse blockTwice = .error ((Error.of .programExpected).located .origin) := by
    rw [parse_of_read ht, check_of_not_program hprogram, hspan]
  refine ⟨t, ht, ?_, hparse, ?_⟩
  · rw [Node.uniqueIds_iff, hids]
    decide
  · rintro ⟨m, -, hm⟩
    rw [hparse] at hm
    cases hm

end Program

end TreeScript
