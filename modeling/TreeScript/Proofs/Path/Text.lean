import Mathlib.Data.List.Basic
import TreeScript.Path

/-!
# The text of a path

A path is as good as its text: the segments of a path that was read from a text are the pieces of the
text between the colons, each with its own mark (`Path.render_segments`). Two facts follow.

* As far as a segment, a path is written as its text up to the colon after that segment
  (`Path.renderUntil_empty`), unless a symbol table says otherwise.
* Two paths with a colon between them are a path again, with the segments of both
  (`Path.ofText?_append`).
-/

namespace TreeScript

/-! ## Pieces -/

section Pieces

variable {separator : Char}

theorem pieces_of_not_mem {cs : List Char} (h : separator ∉ cs) : pieces separator cs = [cs] := by
  induction cs with
  | nil => rfl
  | cons c rest ih =>
    obtain ⟨hc, hrest⟩ := not_or.1 (mt List.mem_cons.2 h)
    rw [pieces, if_neg (Ne.symm hc), ih hrest]

theorem not_mem_of_mem_pieces {cs p : List Char} (h : p ∈ pieces separator cs) : separator ∉ p := by
  induction cs generalizing p with
  | nil =>
    cases List.mem_singleton.1 h
    exact List.not_mem_nil
  | cons c rest ih =>
    rw [pieces] at h
    split at h
    · rcases List.mem_cons.1 h with rfl | h
      · exact List.not_mem_nil
      · exact ih h
    · next hc =>
      cases hpieces : pieces separator rest with
      | nil => exact absurd hpieces (pieces_ne_nil separator rest)
      | cons first others =>
        rw [hpieces] at h ih
        rcases List.mem_cons.1 h with rfl | h
        · exact fun hmem => (List.mem_cons.1 hmem).elim (fun he => hc he.symm) (ih List.mem_cons_self)
        · exact ih (List.mem_cons_of_mem _ h)

theorem pieces_append (a b : List Char) :
    pieces separator (a ++ separator :: b) = pieces separator a ++ pieces separator b := by
  induction a with
  | nil => simp [pieces]
  | cons c rest ih =>
    rw [List.cons_append, pieces, pieces, ih]
    split
    · rfl
    · cases hpieces : pieces separator rest with
      | nil => exact absurd hpieces (pieces_ne_nil separator rest)
      | cons first others => rfl

/-- What comes before the separator number `index`, which is all if there are fewer. The first
separator has the number zero. -/
def cutBefore (separator : Char) : Nat → List Char → List Char
  | _, [] => []
  | 0, c :: rest => if c = separator then [] else c :: cutBefore separator 0 rest
  | index + 1, c :: rest =>
    c :: cutBefore separator (if c = separator then index else index + 1) rest

/-- The first pieces, put together again. -/
theorem intercalate_take_pieces (index : Nat) (cs : List Char) :
    [separator].intercalate ((pieces separator cs).take (index + 1)) =
      cutBefore separator index cs := by
  induction cs generalizing index with
  | nil => simp [pieces, cutBefore]
  | cons c rest ih =>
    cases hpieces : pieces separator rest with
    | nil => exact absurd hpieces (pieces_ne_nil separator rest)
    | cons first others =>
      rw [hpieces] at ih
      by_cases hc : c = separator
      · cases index with
        | zero => simp [pieces, cutBefore, hc]
        | succ index =>
          have hrest := ih index
          rw [List.take_succ_cons] at hrest
          simp [pieces, cutBefore, hc, hpieces, ← hrest]
      · have hrest := ih index
        have hfirst : cutBefore separator index (c :: rest) = c :: cutBefore separator index rest := by
          cases index <;> simp [cutBefore, hc]
        rw [hfirst, ← hrest]
        cases hothers : others.take index <;> simp [pieces, hc, hpieces, hothers]

end Pieces

/-! ## Segments -/

/-- The mark of an optional segment, as it is written. -/
abbrev markText : String := String.singleton optionalMark

namespace Segment

theorem toList_render (seg : Segment) :
    (seg.render markText).toList =
      seg.name.toList ++ if seg.optional then [optionalMark] else [] := by
  unfold render
  split <;> simp [markText]

/-- A segment is written as a name without marks, and the mark if it is optional. -/
theorem ofChars?_eq_some_iff {cs : List Char} {seg : Segment} :
    ofChars? cs = some seg ↔
      seg.name.toList ≠ [] ∧ optionalMark ∉ seg.name.toList ∧
        (seg.render markText).toList = cs := by
  rw [toList_render]
  constructor
  · intro h
    simp only [ofChars?, Option.ite_none_left_eq_some, Bool.or_eq_true, not_or, List.isEmpty_iff,
      List.contains_iff_mem, Option.some.injEq] at h
    obtain ⟨⟨hempty, hmark⟩, rfl⟩ := h
    refine ⟨by simpa using hempty, by simpa using hmark, ?_⟩
    dsimp only
    rw [String.toList_ofList]
    split
    · next hlast => exact List.dropLast_append_getLast? optionalMark (by simpa using hlast)
    · exact List.append_nil cs
  · rintro ⟨hempty, hmark, rfl⟩
    obtain ⟨name, optional⟩ := seg
    cases optional with
    | true => simp [ofChars?, hempty, hmark]
    | false =>
      have hlast : name.toList.getLast? ≠ some optionalMark :=
        fun h => hmark (List.mem_of_getLast? h)
      simp [ofChars?, hempty, hmark, hlast]

end Segment

/-! ## Paths -/

namespace Path

/-- The names of the segments. -/
def names (p : Path) : List String := p.segments.map (·.name)

@[simp] theorem length_names (p : Path) : p.names.length = p.length := List.length_map ..

theorem parse_eq_ok_iff {text : String} {p : Path} : parse text = .ok p ↔ ofText? text = some p := by
  unfold parse
  split <;> simp_all

theorem segments_of_mapM {cuts : List (List Char)} {segments : List Segment}
    (h : cuts.mapM Segment.ofChars? = some segments) :
    segments.map (fun seg => (seg.render markText).toList) = cuts ∧
      ∀ seg ∈ segments, seg.name.toList ≠ [] ∧ optionalMark ∉ seg.name.toList := by
  induction cuts generalizing segments with
  | nil =>
    cases h
    exact ⟨rfl, fun _ hseg => absurd hseg List.not_mem_nil⟩
  | cons cs cuts ih =>
    rw [List.mapM_cons] at h
    obtain ⟨seg, hseg, h⟩ := Option.bind_eq_some_iff.1 h
    obtain ⟨rest, hrest, h⟩ := Option.bind_eq_some_iff.1 h
    cases h
    obtain ⟨hname, hmark, hrender⟩ := Segment.ofChars?_eq_some_iff.1 hseg
    obtain ⟨hcuts, hvalid⟩ := ih hrest
    exact ⟨by rw [List.map_cons, hcuts, hrender], List.forall_mem_cons.2 ⟨⟨hname, hmark⟩, hvalid⟩⟩

variable {text : String} {p : Path}

theorem mapM_pieces (h : parse text = .ok p) :
    (pieces separator text.toList).mapM Segment.ofChars? = some p.segments := by
  obtain ⟨segments, hsegments, rfl⟩ := Option.map_eq_some_iff.1 (parse_eq_ok_iff.1 h)
  exact hsegments

/-- The segments are written as the pieces of the text. -/
theorem render_segments (h : parse text = .ok p) :
    p.segments.map (fun seg => (seg.render markText).toList) = pieces separator text.toList :=
  (segments_of_mapM (mapM_pieces h)).1

theorem segments_ne_nil (h : parse text = .ok p) : p.segments ≠ [] := by
  intro hnil
  have hrender := render_segments h
  rw [hnil] at hrender
  exact pieces_ne_nil separator text.toList hrender.symm

theorem names_ne_nil (h : parse text = .ok p) : p.names ≠ [] :=
  fun hnil => segments_ne_nil h (List.map_eq_nil_iff.1 hnil)

theorem toList_renderUntil_empty (p : Path) (index : Nat) :
    (p.renderUntil index .empty).toList =
      [separator].intercalate ((p.segments.take (index + 1)).map fun seg => (seg.render markText).toList) := by
  show (String.intercalate (String.singleton separator) _).toList = _
  rw [String.toList_intercalate, List.map_map, String.toList_singleton]
  rfl

/-- As far as a segment, a path is written as its text is. -/
theorem renderUntil_empty (h : parse text = .ok p) (index : Nat) :
    p.renderUntil index .empty = String.ofList (cutBefore separator index text.toList) := by
  rw [← intercalate_take_pieces, ← render_segments h, ← List.map_take, ← toList_renderUntil_empty,
    String.ofList_toList]

/-- A name is not empty and holds neither a separator nor a mark. -/
theorem name_of_mem (h : parse text = .ok p) {seg : Segment} (hseg : seg ∈ p.segments) :
    seg.name.toList ≠ [] ∧ separator ∉ seg.name.toList ∧ optionalMark ∉ seg.name.toList := by
  obtain ⟨hrender, hvalid⟩ := segments_of_mapM (mapM_pieces h)
  obtain ⟨hname, hmark⟩ := hvalid seg hseg
  refine ⟨hname, fun hmem => ?_, hmark⟩
  have hpiece : (seg.render markText).toList ∈ pieces separator text.toList :=
    hrender ▸ List.mem_map_of_mem hseg
  rw [Segment.toList_render] at hpiece
  exact not_mem_of_mem_pieces hpiece (List.mem_append_left _ hmem)

/-- The name of a segment is a path of its own. -/
theorem ofText?_name (h : parse text = .ok p) {seg : Segment} (hseg : seg ∈ p.segments) :
    ofText? seg.name = some ⟨[⟨seg.name, false⟩]⟩ := by
  obtain ⟨hname, hseparator, hmark⟩ := name_of_mem h hseg
  have hread : Segment.ofChars? seg.name.toList = some ⟨seg.name, false⟩ :=
    Segment.ofChars?_eq_some_iff.2 ⟨hname, hmark, rfl⟩
  rw [ofText?, pieces_of_not_mem hseparator, List.mapM_cons, hread]
  rfl

/-- Two paths with a colon between them. -/
theorem ofText?_append {back : String} {q : Path} (hp : ofText? text = some p)
    (hq : ofText? back = some q) :
    ofText? (text ++ ":" ++ back) = some ⟨p.segments ++ q.segments⟩ := by
  obtain ⟨segments, hsegments, rfl⟩ := Option.map_eq_some_iff.1 hp
  obtain ⟨others, hothers, rfl⟩ := Option.map_eq_some_iff.1 hq
  have hchars : (text ++ ":" ++ back).toList = text.toList ++ separator :: back.toList := by
    simp [separator]
  rw [ofText?, hchars, pieces_append, List.mapM_append, hsegments, hothers]
  rfl

end Path

end TreeScript
