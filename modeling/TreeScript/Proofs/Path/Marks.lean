import Mathlib.Data.List.Forall2
import TreeScript.Proofs.Eval.Signals
import TreeScript.Proofs.Host
import TreeScript.Proofs.Path.Resolution

/-!
# What the marks of a path do

Marks make a read more forgiving and do nothing else. Where no object of the host is met, a read along
a path either gives the value that its names lead to, whatever the marks, or there is a first name that
cannot be resolved. In the second case it gives none or fails at that name, and with more marks it gives
none more often (`Path.MarkedIn.mayEndAt`). The mark of the last segment plays no part in this.

The message of a failure quotes the path as it was written, up to the name that is missing.
-/

namespace TreeScript

/-- `b` has the name of `a`, and is marked if `a` is. -/
def Segment.MarkedIn (a b : Segment) : Prop :=
  b.name = a.name ∧ (a.optional = true → b.optional = true)

namespace Path

variable {p q : Path} {index : Nat}

/-- `q` has the names of `p`, and is marked at least where `p` is. -/
def MarkedIn (p q : Path) : Prop := List.Forall₂ Segment.MarkedIn p.segments q.segments

theorem MarkedIn.length_eq (h : p.MarkedIn q) : q.length = p.length :=
  (List.Forall₂.length_eq h).symm

theorem MarkedIn.names_eq (h : p.MarkedIn q) : q.names = p.names := by
  unfold names
  unfold MarkedIn at h
  generalize p.segments = segments, q.segments = segments' at h
  induction h with
  | nil => rfl
  | cons hab _ ih => rw [List.map_cons, List.map_cons, hab.1, ih]

theorem MarkedIn.marks (h : p.MarkedIn q) :
    List.Forall₂ (fun a b : Bool => a = true → b = true) p.marks q.marks := by
  have hdrop : List.Forall₂ Segment.MarkedIn p.segments.dropLast q.segments.dropLast := by
    rw [List.dropLast_eq_take, List.dropLast_eq_take, ← List.Forall₂.length_eq h]
    exact List.forall₂_take _ h
  unfold Path.marks
  rw [List.forall₂_map_left_iff, List.forall₂_map_right_iff]
  exact hdrop.imp fun _ _ hab => hab.2

theorem all_of_forall₂ {l l' : List Bool}
    (h : List.Forall₂ (fun a b : Bool => a = true → b = true) l l') (hl : l.all id = true) :
    l'.all id = true := by
  induction h with
  | nil => rfl
  | cons hab _ ih =>
    rw [List.all_cons, Bool.and_eq_true] at hl ⊢
    exact ⟨hab hl.1, ih hl.2⟩

/-- With more marks, a read ends without an error where it did before. -/
theorem MarkedIn.mayEndAt (h : p.MarkedIn q) (hp : p.mayEndAt index = true) :
    q.mayEndAt index = true := by
  unfold Path.mayEndAt at hp ⊢
  rw [Bool.and_eq_true] at hp ⊢
  obtain ⟨hlt, hsafe⟩ := hp
  refine ⟨h.length_eq ▸ hlt, ?_⟩
  by_cases hzero : index = 0
  · rw [if_pos hzero] at hsafe ⊢
    exact all_of_forall₂ h.marks hsafe
  · rw [if_neg hzero, isSafeThrough, Bool.and_eq_true] at hsafe ⊢
    obtain ⟨hsome, hall⟩ := hsafe
    refine ⟨?_, all_of_forall₂ (List.forall₂_take _ h.marks) hall⟩
    rw [Bool.not_eq_true', List.isEmpty_eq_false_iff] at hsome ⊢
    exact fun hnil => hsome (List.forall₂_nil_right_iff.1 (hnil ▸ h.marks))

/-- Where a read may end does not depend on the mark of the last segment. -/
theorem mayEndAt_congr (hnames : q.names = p.names) (hmarks : q.marks = p.marks) (index : Nat) :
    q.mayEndAt index = p.mayEndAt index := by
  have hlength : q.length = p.length := by
    rw [← length_names, hnames, length_names]
  unfold mayEndAt isSafeThrough
  rw [hlength, hmarks]

end Path

namespace Eval

/-- The read fails at the name at a position, which is the first that cannot be resolved. -/
def FailsAt (engine : Engine) (scope : ScopeId) (text : String) (s : State) (index : Nat) : Prop :=
  ∃ p, Path.parse text = .ok p ∧ s.Missing scope p.names index ∧
    readPath engine scope text s = .error (p.notFound index engine.symbols) s

variable {engine : Engine} {s : State} {scope : ScopeId} {c : Scope} {text text' : String}
  {p q : Path}

theorem readPath_unregistered (hc : s.scopes.find? scope = none) (hp : Path.parse text = .ok p) :
    readPath engine scope text s = .error (.of (.contextMissing scope)) s := by
  rw [readPath_of_parse hp, readAlong_unregistered hc (Path.segments_ne_nil hp)]

variable (engine) in
/-- How two paths with the same names are read. -/
theorem readPath_both (hs : s.Native) (hc : s.scopes.find? scope = some c)
    (hp : Path.parse text = .ok p) (hq : Path.parse text' = .ok q) (hnames : q.names = p.names) :
    (∃ v, readPath engine scope text s = .ok v s ∧ readPath engine scope text' s = .ok v s) ∨
    ∃ index, s.Missing scope p.names index ∧
      (readPath engine scope text s =
        if p.mayEndAt index then .ok .none s else .error (p.notFound index engine.symbols) s) ∧
      readPath engine scope text' s =
        if q.mayEndAt index then .ok .none s else .error (q.notFound index engine.symbols) s := by
  rw [readPath_of_parse hp, readPath_of_parse hq]
  have hn := hs.along scope p.names
  rcases s.resolved_or_missing scope (Path.names_ne_nil hp) with ⟨v, hv⟩ | ⟨index, hindex⟩
  · exact .inl ⟨v, readAlong_resolved hv, readAlong_resolved (hnames ▸ hv)⟩
  · refine .inr ⟨index, hindex, readAlong_missing hc hn hindex, ?_⟩
    rw [← hnames] at hn hindex
    exact readAlong_missing hc hn hindex

/-- A path that may end wherever another one may gives all the values that the other one gives. -/
theorem readPath_ok_of_ends {v : Value} {t : State} (hs : s.Native) (hp : Path.parse text = .ok p)
    (hq : Path.parse text' = .ok q) (hnames : q.names = p.names)
    (hends : ∀ index, p.mayEndAt index = true → q.mayEndAt index = true)
    (hv : readPath engine scope text s = .ok v t) : readPath engine scope text' s = .ok v t := by
  cases hc : s.scopes.find? scope with
  | none =>
    rw [readPath_unregistered hc hp] at hv
    cases hv
  | some c =>
    rcases readPath_both engine hs hc hp hq hnames with ⟨w, hw, hw'⟩ | ⟨index, -, hread, hread'⟩
    · rw [hw] at hv
      rw [hw', hv]
    · rw [hread] at hv
      split at hv
      · next hend =>
        rw [hread', if_pos (hends index hend), hv]
      · cases hv

theorem failsAt_of_ends {e : Error} {t : State} (hs : s.Native) (hc : s.scopes.find? scope = some c)
    (hp : Path.parse text = .ok p) (hq : Path.parse text' = .ok q) (hnames : q.names = p.names)
    (hends : ∀ index, p.mayEndAt index = true → q.mayEndAt index = true)
    (he : readPath engine scope text s = .error e t) :
    readPath engine scope text' s = .ok .none s ∨
      ∃ index, FailsAt engine scope text s index ∧ FailsAt engine scope text' s index := by
  rcases readPath_both engine hs hc hp hq hnames with ⟨w, hw, -⟩ | ⟨index, hindex, hread, hread'⟩
  · rw [hw] at he
    cases he
  · by_cases hend : q.mayEndAt index = true
    · exact .inl (hread'.trans (if_pos hend))
    · have hend' : ¬p.mayEndAt index = true := fun hp => hend (hends index hp)
      refine .inr ⟨index, ⟨p, hp, hindex, hread.trans (if_neg hend')⟩, q, hq, ?_,
        hread'.trans (if_neg hend)⟩
      rw [hnames]
      exact hindex

theorem FailsAt.unique {index index' : Nat} (h : FailsAt engine scope text s index)
    (h' : FailsAt engine scope text s index') : index = index' := by
  obtain ⟨p, hp, hmissing, -⟩ := h
  obtain ⟨q, hq, hmissing', -⟩ := h'
  cases hp.symm.trans hq
  exact hmissing.unique hmissing'

theorem FailsAt.not_ok {index : Nat} (h : FailsAt engine scope text s index) (v : Value)
    (t : State) : readPath engine scope text s ≠ .ok v t := by
  obtain ⟨p, -, -, he⟩ := h
  intro hv
  rw [he] at hv
  cases hv

theorem FailsAt.registered {index : Nat} (h : FailsAt engine scope text s index) :
    ∃ c, s.scopes.find? scope = some c := by
  obtain ⟨p, hp, -, he⟩ := h
  cases hc : s.scopes.find? scope with
  | none =>
    rw [readPath_unregistered hc hp] at he
    cases he
  | some c => exact ⟨c, rfl⟩

theorem failsAt_same_ends {index : Nat} (hs : s.Native) (hp : Path.parse text = .ok p)
    (hq : Path.parse text' = .ok q) (hnames : q.names = p.names)
    (hends : ∀ index, q.mayEndAt index = p.mayEndAt index)
    (h : FailsAt engine scope text s index) : FailsAt engine scope text' s index := by
  obtain ⟨c, hc⟩ := h.registered
  obtain ⟨_, -, -, he⟩ := id h
  rcases failsAt_of_ends hs hc hp hq hnames (fun i => (hends i).trans) he with
    hv | ⟨index', hfails, hfails'⟩
  · have hv := readPath_ok_of_ends hs hq hp hnames.symm (fun i => (hends i).symm.trans) hv
    exact absurd hv (h.not_ok _ _)
  · exact h.unique hfails ▸ hfails'

/-! ## Messages -/

theorem failsAt_of_error {e : Error} {t : State} (hs : s.Native)
    (hc : s.scopes.find? scope = some c) (hp : Path.parse text = .ok p)
    (he : readPath engine scope text s = .error e t) :
    ∃ index, FailsAt engine scope text s index ∧ e = p.notFound index engine.symbols := by
  rcases readPath_both engine hs hc hp hp rfl with ⟨v, hv, -⟩ | ⟨index, hindex, hread, -⟩
  · rw [hv] at he
    cases he
  · have hfailed := hread.symm.trans he
    split at hfailed
    · cases hfailed
    · next hend =>
      cases hfailed
      exact ⟨index, ⟨p, hp, hindex, hread.trans (if_neg hend)⟩, rfl⟩

theorem message_notFound (hp : Path.parse text = .ok p) (index : Nat) :
    (p.notFound index .empty).message =
      "Variable " ++ Cause.quoted (String.ofList (cutBefore separator index text.toList)) ++
        " was not found." := by
  rw [← Path.renderUntil_empty hp]
  rfl

/-- **Marks make a read more forgiving.** Let `text` be a path over objects of a script.

* With more marks, it gives every value that it gave before. Where it failed, it then gives none or
  fails at the same name.
* The mark of the last segment changes nothing of this.
* A failure is reported as a variable that was not found. Its message quotes the text of the path up
  to the end of the first name that cannot be resolved.

From a scope that is not registered, every read fails in the same way. -/
theorem readPath_marked (hs : s.Native) (hp : Path.parse text = .ok p) :
    (∀ text' q, Path.parse text' = .ok q → p.MarkedIn q →
      (∀ v t, readPath engine scope text s = .ok v t → readPath engine scope text' s = .ok v t) ∧
      ∀ e t, s.scopes.contains scope → readPath engine scope text s = .error e t →
        readPath engine scope text' s = .ok .none s ∨
        ∃ index, FailsAt engine scope text s index ∧ FailsAt engine scope text' s index) ∧
    (∀ text' q, Path.parse text' = .ok q → q.names = p.names → q.marks = p.marks →
      (∀ v t, readPath engine scope text s = .ok v t ↔ readPath engine scope text' s = .ok v t) ∧
      ∀ index, FailsAt engine scope text s index ↔ FailsAt engine scope text' s index) ∧
    (∀ e t, s.scopes.contains scope → readPath engine scope text s = .error e t →
      ∃ index, FailsAt engine scope text s index ∧ e.code = "RUNTIME_VARIABLE_NOT_FOUND" ∧
        (engine.symbols = .empty → e.message = "Variable " ++
          Cause.quoted (String.ofList (cutBefore separator index text.toList)) ++
          " was not found.")) ∧
    (¬s.scopes.contains scope →
      readPath engine scope text s = .error (.of (.contextMissing scope)) s) := by
  refine ⟨fun text' q hq h => ⟨fun v t => readPath_ok_of_ends hs hp hq h.names_eq fun _ => h.mayEndAt, ?_⟩,
    fun text' q hq hnames hmarks => ?_, ?_, ?_⟩
  · intro e t hscope he
    obtain ⟨c, hc⟩ := ScopeTree.contains_iff.1 hscope
    exact failsAt_of_ends hs hc hp hq h.names_eq (fun _ => h.mayEndAt) he
  · have hends := Path.mayEndAt_congr hnames hmarks
    refine ⟨fun v t => ⟨?_, ?_⟩, fun index => ⟨?_, ?_⟩⟩
    · exact readPath_ok_of_ends hs hp hq hnames fun i => (hends i).trans
    · exact readPath_ok_of_ends hs hq hp hnames.symm fun i => (hends i).symm.trans
    · exact failsAt_same_ends hs hp hq hnames hends
    · exact failsAt_same_ends hs hq hp hnames.symm fun i => (hends i).symm
  · intro e t hscope he
    obtain ⟨c, hc⟩ := ScopeTree.contains_iff.1 hscope
    obtain ⟨index, hfails, rfl⟩ := failsAt_of_error hs hc hp he
    refine ⟨index, hfails, rfl, fun hsymbols => ?_⟩
    rw [hsymbols, message_notFound hp]
  · intro hscope
    exact readPath_unregistered (Table.contains_eq_false.1 (Bool.eq_false_iff.2 hscope)) hp

end Eval

/-- Makes an object `a` with an object `b` in it, which is also `d` and has the field `c`. The object `e`
has no fields, and `f` is none. -/
def Action.nesting : List Action := [
  .build (.object [⟨"c", false, .primitive "float", 1, none, .known (.int 1)⟩]),
  .declare 0 "d" false .any (.object 0),
  .build (.object [⟨"b", false, .object, 1, none, .known (.object 0)⟩]),
  .declare 0 "a" true .object (.object 1),
  .build (.object []),
  .declare 0 "e" false .any (.object 2),
  .declare 0 "f" false .any .none]

/-- The state with these objects. -/
def State.nested : State := Engine.bare.perform Action.nesting .initial

/-- The object `e` has no field `b`. A read fails there, unless `b` is optional too; the mark of `c` does
not matter. -/
theorem Eval.readPath_marked_nested :
    let s := State.nested
    s.Native ∧ (∃ index, FailsAt Engine.bare 0 "e؟:b:c" s index) ∧
      (readPath Engine.bare 0 "e؟:b:c" s).failure?.map (·.message) =
        some "Variable \"e؟:b\" was not found." ∧
      readPath Engine.bare 0 "e؟:b؟:c" s = .ok .none s ∧
      readPath Engine.bare 0 "e؟:b؟:c؟" s = .ok .none s := by
  intro s
  have hs : s.Native := by decide +kernel
  have hscope : s.scopes.contains 0 := by decide +kernel
  have hp : Path.parse "e؟:b:c" = .ok ⟨[⟨"e", true⟩, ⟨"b", false⟩, ⟨"c", false⟩]⟩ :=
    Path.parse_eq_ok_iff.2 (by decide +kernel)
  have hq : Path.parse "e؟:b؟:c" = .ok ⟨[⟨"e", true⟩, ⟨"b", true⟩, ⟨"c", false⟩]⟩ :=
    Path.parse_eq_ok_iff.2 (by decide +kernel)
  have hr : Path.parse "e؟:b؟:c؟" = .ok ⟨[⟨"e", true⟩, ⟨"b", true⟩, ⟨"c", true⟩]⟩ :=
    Path.parse_eq_ok_iff.2 (by decide +kernel)
  have hmessage : (readPath Engine.bare 0 "e؟:b:c" s).failure?.map (·.message) =
      some "Variable \"e؟:b\" was not found." := by decide +kernel
  have hgives : (readPath Engine.bare 0 "e؟:b؟:c" s).value?.isSome := by decide +kernel
  obtain ⟨e, hfailed, -⟩ := Option.map_eq_some_iff.1 hmessage
  obtain ⟨t, he⟩ := Outcome.exists_of_failure? hfailed
  obtain ⟨hmore, -, hfails, -⟩ := readPath_marked hs hp
  obtain ⟨index, hindex, -, -⟩ := hfails e t hscope he
  have hnone : readPath Engine.bare 0 "e؟:b؟:c" s = .ok .none s := by
    have hmarked : Path.MarkedIn ⟨[⟨"e", true⟩, ⟨"b", false⟩, ⟨"c", false⟩]⟩
        ⟨[⟨"e", true⟩, ⟨"b", true⟩, ⟨"c", false⟩]⟩ :=
      .cons ⟨rfl, id⟩ (.cons ⟨rfl, fun _ => rfl⟩ (.cons ⟨rfl, id⟩ .nil))
    rcases (hmore _ _ hq hmarked).2 e t hscope he with hok | ⟨_, -, _, -, -, herror⟩
    · exact hok
    · rw [herror] at hgives
      cases hgives
  exact ⟨hs, ⟨index, hindex⟩, hmessage, hnone,
    (((readPath_marked hs hq).2.1 _ _ hr rfl rfl).1 _ _).1 hnone⟩

end TreeScript
