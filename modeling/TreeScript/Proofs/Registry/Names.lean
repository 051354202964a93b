import TreeScript.Proofs.Path.Grammar
import TreeScript.Proofs.Registry

/-!
# The names of host functions

A function of the host stands under the name of its owner, two colons and its method. The name is
checked as a whole, so a colon at the edge of one of the two could move into the other. It cannot:

* a name is accepted exactly if its owner is a row of non-empty parts and its method is one such part
  (`isQualifiedCall_joined`);
* an accepted name has one owner and one method (`joined_inj`);
* hence the functions of the host that a registry holds under one name have one owner and one method,
  whatever was registered and whatever was refused before (`Registry.Reachable.place_unique`).
-/

namespace TreeScript

/-- The owners of functions: rows of non-empty parts, with colons between them. -/
def ownerGrammar : Language Char := separated separator partGrammar

/-- An owner and a method, with two colons between them. -/
def joined (owner method : String) : String := owner ++ "::" ++ method

section Joined

variable {owner method owner' method' text : String}

theorem pieces_joined (owner method : String) :
    pieces separator (joined owner method).toList =
      pieces separator owner.toList ++ [] :: pieces separator method.toList := by
  have hchars : (joined owner method).toList =
      owner.toList ++ separator :: ([] ++ separator :: method.toList) := by
    simp [joined, separator]
  rw [hchars, pieces_append, pieces_append]
  rfl

theorem mem_ownerGrammar_iff :
    owner.toList ∈ ownerGrammar ↔ [] ∉ pieces separator owner.toList := by
  rw [ownerGrammar, ← isQualifiedName_iff, isQualifiedName]
  simp [wellFormed, pieces_ne_nil, List.forall_mem_ne']

theorem pieces_of_mem_partGrammar (h : method.toList ∈ partGrammar) :
    pieces separator method.toList = [method.toList] := pieces_of_not_mem h.2

theorem chars_of_pieces (cs : List Char) : [separator].intercalate (pieces separator cs) = cs := by
  rw [pieces_eq_splitOn, List.intercalate_splitOn]

/-- Two rows with a gap in them are cut at the same place if one has its first gap there and one part
after it, and the other has parts after its gap. -/
theorem append_gap_inj {α : Type} {front parts back : List α} {gap last : α}
    (h : front ++ gap :: back = parts ++ [gap, last]) (hback : back ≠ []) (hparts : gap ∉ parts) :
    front = parts ∧ back = [last] := by
  rcases List.append_eq_append_iff.1 h with ⟨more, rfl, htail⟩ | ⟨more, rfl, htail⟩
  · cases more with
    | nil => simpa using htail
    | cons x more => simp_all
  · cases more with
    | nil => simp_all
    | cons x more => cases more <;> simp_all

/-- The pieces of a qualified call: those of an owner, an empty one and a method. -/
theorem isQualifiedCall_iff_pieces :
    isQualifiedCall text = true ↔ ∃ parts last, pieces separator text.toList = parts ++ [[], last] ∧
      parts ≠ [] ∧ [] ∉ parts ∧ last ≠ [] := by
  unfold isQualifiedCall
  constructor
  · intro h
    split at h
    · next last gap owner hreverse =>
      simp only [wellFormed, Bool.and_eq_true, Bool.not_eq_true', List.isEmpty_iff,
        List.isEmpty_eq_false_iff, List.all_eq_true] at h
      obtain ⟨⟨hlast, rfl⟩, hne, hparts⟩ := h
      refine ⟨owner.reverse, last, ?_, by simpa using hne, ?_, hlast⟩
      · rw [← List.reverse_reverse (pieces separator text.toList), hreverse]
        simp
      · intro hmem
        exact hparts [] (List.mem_reverse.1 hmem) rfl
    · cases h
  · rintro ⟨parts, last, hpieces, hne, hparts, hlast⟩
    rw [hpieces]
    have hall : ∀ p ∈ parts, p ≠ [] := fun p hp he => hparts (he ▸ hp)
    simpa [wellFormed, hlast, hne] using hall

/-- **Accepted names.** A name is accepted if its owner and its method are proper, and only then. -/
theorem isQualifiedCall_joined :
    isQualifiedCall (joined owner method) = true ↔
      owner.toList ∈ ownerGrammar ∧ method.toList ∈ partGrammar := by
  rw [isQualifiedCall_iff_pieces, pieces_joined, mem_ownerGrammar_iff]
  constructor
  · rintro ⟨parts, last, hpieces, -, hparts, hlast⟩
    -- The first empty piece is the gap, so a colon in the method would leave too many pieces after it.
    obtain ⟨howner, hmethod⟩ := append_gap_inj hpieces (pieces_ne_nil _ _) hparts
    have hmem : last ∈ pieces separator method.toList := by simp [hmethod]
    have hchars : method.toList = last := by
      rw [← chars_of_pieces method.toList, hmethod]
      simp
    refine ⟨howner ▸ hparts, ?_⟩
    rw [hchars]
    exact ⟨hlast, not_mem_of_mem_pieces hmem⟩
  · rintro ⟨howner, hmethod⟩
    rw [pieces_of_mem_partGrammar hmethod]
    exact ⟨_, _, rfl, pieces_ne_nil _ _, howner, hmethod.1⟩

/-- **One reading.** An accepted name has one owner and one method. -/
theorem joined_inj (h : isQualifiedCall (joined owner method) = true)
    (heq : joined owner method = joined owner' method') : owner = owner' ∧ method = method' := by
  obtain ⟨-, hmethod⟩ := isQualifiedCall_joined.1 h
  obtain ⟨-, hmethod'⟩ := isQualifiedCall_joined.1 (heq ▸ h)
  have hpieces := congrArg (fun text => pieces separator text.toList) heq
  simp only [pieces_joined, pieces_of_mem_partGrammar hmethod, pieces_of_mem_partGrammar hmethod'] at hpieces
  obtain ⟨howner, hlast⟩ := List.append_inj' hpieces rfl
  constructor
  · rw [← String.toList_inj, ← chars_of_pieces owner.toList, howner, chars_of_pieces]
  · exact String.toList_inj.1 (by simpa using hlast)

/-- A qualified call has an empty piece, so it is no qualified name. -/
theorem isQualifiedName_of_isQualifiedCall (h : isQualifiedCall text = true) :
    isQualifiedName text = false := by
  obtain ⟨parts, last, hpieces, -⟩ := isQualifiedCall_iff_pieces.1 h
  simp [isQualifiedName, wellFormed, hpieces]

end Joined

namespace Native

variable {n m : Native} {owner method : String}

/-- The owner and the method of a function of the host. The method of a constructor is `new`. -/
def place? (n : Native) : Option (String × String) :=
  match n.kind with
  | .builtin .. => none
  | .static owner method _ | .member owner method _ => some (owner, method)
  | .creator owner => some (owner, "new")

theorem name_of_place (h : n.place? = some (owner, method)) : n.name = joined owner method := by
  cases hkind : n.kind with
  | builtin => simp [place?, hkind] at h
  | static | member =>
    simp only [place?, hkind, Option.some.injEq, Prod.mk.injEq] at h
    obtain ⟨rfl, rfl⟩ := h
    simp [name, joined, hkind]
  | creator owner =>
    simp only [place?, hkind, Option.some.injEq, Prod.mk.injEq] at h
    obtain ⟨rfl, rfl⟩ := h
    simp only [name, joined, hkind, String.append_assoc]
    rfl

end Native

namespace Registry

variable {r : Registry} {n m : Native} {owner method name : String}

theorem acceptsName_of_place (h : n.place? = some (owner, method)) :
    acceptsName n = isQualifiedCall (joined owner method) := by
  rw [← Native.name_of_place h]
  unfold Native.place? at h
  unfold acceptsName
  split at h <;> simp_all

/-- The registry that an attempt to register a function leaves. -/
def offered (r : Registry) (n : Native) : Registry := (register n r).reached

theorem offered_eq (r : Registry) (n : Native) :
    r.offered n = if acceptsName n then r.add n else r := by
  unfold offered register
  split <;> rfl

/-- A registry that attempts to register functions lead to, one after the other. -/
inductive Reachable : Registry → Prop
  | empty : Reachable .empty
  | offered {r : Registry} (n : Native) (h : Reachable r) : Reachable (r.offered n)

/-- Under a name stand functions of this name, and only accepted ones. -/
theorem Reachable.of_mem_candidates (h : Reachable r) (hn : n ∈ r.candidates name) :
    n.name = name ∧ acceptsName n = true := by
  induction h with
  | empty => cases hn
  | @offered r m _ ih =>
    rw [offered_eq] at hn
    split at hn
    · next haccepts =>
      rw [candidates_add] at hn
      rcases List.mem_append.1 hn with hn | hn
      · exact ih hn
      · split at hn
        · next hname =>
          cases List.mem_singleton.1 hn
          exact ⟨hname, haccepts⟩
        · cases hn
    · exact ih hn

/-- The functions of the host under one name belong to one place. -/
theorem Reachable.place_unique (h : Reachable r) (hn : n ∈ r.candidates name) (hm : m ∈ r.candidates name)
    {place place' : String × String} (hplace : n.place? = some place) (hplace' : m.place? = some place') :
    place = place' := by
  obtain ⟨hname, haccepts⟩ := h.of_mem_candidates hn
  obtain ⟨hname', -⟩ := h.of_mem_candidates hm
  rw [acceptsName_of_place hplace] at haccepts
  have heq : joined place.1 place.2 = joined place'.1 place'.2 := by
    rw [← Native.name_of_place hplace, ← Native.name_of_place hplace', hname, hname']
  obtain ⟨howner, hmethod⟩ := joined_inj haccepts heq
  exact Prod.ext howner hmethod

theorem register_of_place (h : n.place? = some (owner, method)) :
    register n r = if isQualifiedCall (joined owner method) then .ok () (r.add n)
      else .error (.of (.invalidCallName (joined owner method))) r := by
  rw [register, acceptsName_of_place h, Native.name_of_place h]
  split <;> rfl

/-- **Registration.** A function of the host is accepted exactly if its owner is a row of non-empty parts and
its method is a non-empty text without colons. It then stands behind the functions of its name, and the other names
hold what they held; a function that is refused leaves the registry as it was. The name of
an accepted function determines its owner and its method, so all functions of the host that a registry holds under one
name have the same owner and the same method. The name of a call is never the name of a variable. -/
theorem register_exact :
    (∀ (r : Registry) (n : Native) (owner method : String), n.place? = some (owner, method) →
      ((∃ r', register n r = .ok () r') ↔ owner.toList ∈ ownerGrammar ∧ method.toList ∈ partGrammar) ∧
      (∀ r', register n r = .ok () r' → ∀ name,
        r'.candidates name = r.candidates name ++ if n.name = name then [n] else []) ∧
      (¬(owner.toList ∈ ownerGrammar ∧ method.toList ∈ partGrammar) →
        register n r = .error (.of (.invalidCallName (joined owner method))) r)) ∧
    (∀ owner method owner' method' : String, owner.toList ∈ ownerGrammar → method.toList ∈ partGrammar →
      joined owner method = joined owner' method' → owner = owner' ∧ method = method') ∧
    (∀ r, Reachable r → ∀ name, ∀ n ∈ r.candidates name, ∀ m ∈ r.candidates name,
      ∀ place place', n.place? = some place → m.place? = some place' → place = place') ∧
    ∀ text, isQualifiedCall text = true →
      isQualifiedName text = false ∧ ∀ p, Path.parse text ≠ .ok p := by
  refine ⟨?_, ?_, ?_, ?_⟩
  · intro r n owner method hplace
    rw [← isQualifiedCall_joined, register_of_place hplace]
    refine ⟨?_, fun r' hr' => ?_, fun hrefused => if_neg hrefused⟩
    · split <;> simp_all
    · split at hr' <;> cases hr'
      exact candidates_add r n
  · intro owner method owner' method' howner hmethod
    exact joined_inj (isQualifiedCall_joined.2 ⟨howner, hmethod⟩)
  · intro r hr name n hn m hm place place'
    exact hr.place_unique hn hm
  · intro text htext
    have hname := isQualifiedName_of_isQualifiedCall htext
    refine ⟨hname, ?_⟩
    intro p hp
    have hgrammar := Path.isQualifiedName_of_mem_grammar (Path.exists_parse_iff.1 ⟨p, hp⟩)
    rw [hname] at hgrammar
    cases hgrammar

/-- A function without parameters. -/
def bare (kind : Native.Kind) : Native := ⟨kind, ⟨[], .any, false⟩, .arguments⟩

/-- A registry that was offered a static function and a member under one name, and between them a constructor whose
owner ends with a colon. -/
def sorting : Registry :=
  ((empty.offered (bare (.static "util:Arrays" "sort" false))).offered (bare (.creator "util:"))).offered
    (bare (.member "util:Arrays" "sort" true))

theorem candidates_sorting : sorting.candidates "util:Arrays::sort" =
    [bare (.static "util:Arrays" "sort" false), bare (.member "util:Arrays" "sort" true)] := by
  unfold sorting
  rw [offered_eq, if_pos (by decide), offered_eq, if_neg (by decide), offered_eq, if_pos (by decide),
    candidates_add, candidates_add, if_pos (by decide), if_pos (by decide)]
  rfl

/-- The static function is accepted and the constructor is not, and the two functions that the registry holds under one
name have one place. -/
theorem register_exact_sorting :
    (∃ r, register (bare (.static "util:Arrays" "sort" false)) empty = .ok () r) ∧
    register (bare (.creator "util:")) sorting = .error (.of (.invalidCallName "util:::new")) sorting ∧
    (∀ owner method, joined "util:Arrays" "sort" = joined owner method →
      "util:Arrays" = owner ∧ "sort" = method) ∧
    (∀ m ∈ sorting.candidates "util:Arrays::sort", ∀ place, m.place? = some place →
      ("util:Arrays", "sort") = place) ∧
    isQualifiedName "util:Arrays::sort" = false := by
  obtain ⟨haccepts, hinj, hplaces, hcalls⟩ := register_exact
  have howner : "util:Arrays".toList ∈ ownerGrammar := mem_ownerGrammar_iff.2 (by decide)
  have hmethod : "sort".toList ∈ partGrammar := show _ ∧ _ by decide
  refine ⟨?_, ?_, ?_, ?_, ?_⟩
  · exact (haccepts empty _ "util:Arrays" "sort" rfl).1.2 ⟨howner, hmethod⟩
  · refine (haccepts sorting _ "util:" "new" rfl).2.2 fun h => ?_
    exact absurd (mem_ownerGrammar_iff.1 h.1) (by decide)
  · intro owner method
    exact hinj _ _ owner method howner hmethod
  · intro m hm place
    have hreachable : Reachable sorting := .offered _ (.offered _ (.offered _ .empty))
    refine hplaces _ hreachable _ (bare (.static "util:Arrays" "sort" false)) ?_ m hm _ _ rfl
    simp [candidates_sorting]
  · exact (hcalls _ (by decide)).1

end Registry

end TreeScript
