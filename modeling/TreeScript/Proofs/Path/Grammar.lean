import Mathlib.Computability.Language
import TreeScript.Proofs.Path.Text

/-!
# The grammar of paths

A path is a row of segments with colons between them, and a segment is a name, perhaps with the mark
after it. `Path.grammar` says this as a language, without the functions that read and write paths.

A path is read from one text only, the one it is written as (`Path.parse_eq_ok_iff_fullText`), and the texts
that paths are written as are those of the grammar (`Path.mem_grammar_iff`).
-/

namespace TreeScript

open scoped Computability

/-! ## Rows of words -/

/-- One or more words of a language, with a character between them. -/
def separated (separator : Char) (l : Language Char) : Language Char := l * ({[separator]} * l)∗

section Separated

variable {separator : Char} {l m : Language Char} {cs : List Char}

theorem pieces_eq_splitOn (cs : List Char) : pieces separator cs = cs.splitOn separator := by
  rw [List.splitOn_eq_splitOnP]
  induction cs with
  | nil => rfl
  | cons c rest ih =>
    rw [List.splitOnP_cons_eq_if_modifyHead, ← ih, pieces]
    simp only [beq_iff_eq]
    split
    · rfl
    · cases hpieces : pieces separator rest with
      | nil => exact absurd hpieces (pieces_ne_nil separator rest)
      | cons first others => rfl

theorem intercalate_cons (p : List Char) (parts : List (List Char)) :
    [separator].intercalate (p :: parts) = p ++ (parts.map (separator :: ·)).flatten := by
  induction parts generalizing p with
  | nil => simp
  | cons q parts ih =>
    rw [List.intercalate_cons_cons, ih]
    simp

theorem exists_map_eq {α β : Type} {f : α → β} {P : α → Prop} {ys : List β}
    (h : ∀ y ∈ ys, ∃ x, P x ∧ f x = y) : ∃ xs : List α, (∀ x ∈ xs, P x) ∧ xs.map f = ys := by
  induction ys with
  | nil => exact ⟨[], List.forall_mem_nil _, rfl⟩
  | cons y ys ih =>
    obtain ⟨⟨x, hx, rfl⟩, hys⟩ := List.forall_mem_cons.1 h
    obtain ⟨xs, hxs, rfl⟩ := ih hys
    exact ⟨x :: xs, List.forall_mem_cons.2 ⟨hx, hxs⟩, rfl⟩

theorem mem_singleton_mul_iff : cs ∈ {[separator]} * l ↔ ∃ p ∈ l, separator :: p = cs := by
  constructor
  · intro h
    obtain ⟨_, rfl, p, hp, rfl⟩ := Language.mem_mul.1 h
    exact ⟨p, hp, rfl⟩
  · rintro ⟨p, hp, rfl⟩
    exact Language.mem_mul.2 ⟨[separator], rfl, p, hp, rfl⟩

/-- A row of words is made from the words. -/
theorem mem_separated_iff :
    cs ∈ separated separator l ↔
      ∃ parts ≠ [], (∀ p ∈ parts, p ∈ l) ∧ [separator].intercalate parts = cs := by
  constructor
  · intro h
    obtain ⟨p, hp, _, hrest, rfl⟩ := Language.mem_mul.1 h
    obtain ⟨words, rfl, hwords⟩ := Language.mem_kstar.1 hrest
    obtain ⟨parts, hparts, rfl⟩ := exists_map_eq fun word hword => mem_singleton_mul_iff.1 (hwords word hword)
    exact ⟨p :: parts, List.cons_ne_nil _ _, List.forall_mem_cons.2 ⟨hp, hparts⟩, intercalate_cons p parts⟩
  · rintro ⟨parts, hne, hparts, rfl⟩
    obtain ⟨p, parts, rfl⟩ := List.exists_cons_of_ne_nil hne
    obtain ⟨hp, hparts⟩ := List.forall_mem_cons.1 hparts
    rw [intercalate_cons]
    refine Language.append_mem_mul hp (Language.join_mem_kstar ?_)
    simpa [mem_singleton_mul_iff] using hparts

/-- The pieces of a row are its words, if no word holds the separator. -/
theorem mem_separated_iff_pieces (hl : ∀ p ∈ l, separator ∉ p) :
    cs ∈ separated separator l ↔ ∀ p ∈ pieces separator cs, p ∈ l := by
  rw [mem_separated_iff]
  constructor
  · rintro ⟨parts, hne, hparts, rfl⟩
    rw [pieces_eq_splitOn, List.splitOn_intercalate separator (fun p hp => hl p (hparts p hp)) hne]
    exact hparts
  · intro hpieces
    refine ⟨_, pieces_ne_nil separator cs, hpieces, ?_⟩
    rw [pieces_eq_splitOn, List.intercalate_splitOn]

end Separated

/-- The non-empty texts without a colon. -/
def partGrammar : Language Char := {cs | cs ≠ [] ∧ separator ∉ cs}

/-- A qualified name is a row of such texts. -/
theorem isQualifiedName_iff {text : String} :
    isQualifiedName text = true ↔ text.toList ∈ separated separator partGrammar := by
  rw [mem_separated_iff_pieces fun p hp => hp.2]
  have hpieces (p : List Char) (hp : p ∈ pieces separator text.toList) : p ∈ partGrammar ↔ p ≠ [] :=
    and_iff_left (not_mem_of_mem_pieces hp)
  rw [forall₂_congr hpieces]
  simp [isQualifiedName, wellFormed, pieces_ne_nil]

/-! ## Segments -/

namespace Segment

/-- The names of segments. -/
def nameGrammar : Language Char := {cs | cs ≠ [] ∧ separator ∉ cs ∧ optionalMark ∉ cs}

/-- A name, and at most one mark after it. -/
def grammar : Language Char := nameGrammar * (1 + {[optionalMark]})

variable {seg : Segment} {segments : List Segment}

theorem mem_grammar_iff {cs : List Char} :
    cs ∈ grammar ↔ ∃ seg : Segment, seg.name.toList ∈ nameGrammar ∧ (seg.render markText).toList = cs := by
  simp only [toList_render]
  constructor
  · intro h
    obtain ⟨name, hname, mark, hmark, rfl⟩ := Language.mem_mul.1 h
    rcases hmark with rfl | rfl
    · exact ⟨⟨String.ofList name, false⟩, by simpa using hname, by simp⟩
    · exact ⟨⟨String.ofList name, true⟩, by simpa using hname, by simp⟩
  · rintro ⟨seg, hname, rfl⟩
    refine Language.append_mem_mul hname ?_
    split
    · exact .inr rfl
    · exact .inl rfl

theorem not_mem_of_mem_grammar {cs : List Char} (h : cs ∈ grammar) : separator ∉ cs := by
  obtain ⟨seg, hname, rfl⟩ := mem_grammar_iff.1 h
  rw [toList_render]
  have hmark : separator ∉ if seg.optional then [optionalMark] else [] := by
    split <;> decide
  exact fun hmem => (List.mem_append.1 hmem).elim hname.2.1 hmark

theorem mapM_render (h : ∀ seg ∈ segments, seg.name.toList ∈ nameGrammar) :
    (segments.map fun seg => (seg.render markText).toList).mapM ofChars? = some segments := by
  induction segments with
  | nil => rfl
  | cons seg segments ih =>
    obtain ⟨hseg, hsegments⟩ := List.forall_mem_cons.1 h
    have hread : ofChars? (seg.render markText).toList = some seg :=
      ofChars?_eq_some_iff.2 ⟨hseg.1, hseg.2.2, rfl⟩
    rw [List.map_cons, List.mapM_cons, hread, ih hsegments]
    rfl

end Segment

/-! ## Paths -/

namespace Path

/-- One or more segments, with colons between them. -/
def grammar : Language Char := separated separator Segment.grammar

variable {text : String} {p : Path}

/-- The path to its end, as it is written. -/
def fullText (p : Path) : String := p.renderUntil (p.length - 1) .empty

/-- There are segments, and each has a proper name. -/
def IsProper (p : Path) : Prop :=
  p.segments ≠ [] ∧ ∀ seg ∈ p.segments, seg.name.toList ∈ Segment.nameGrammar

theorem toList_fullText (p : Path) :
    p.fullText.toList = [separator].intercalate (p.segments.map fun seg => (seg.render markText).toList) := by
  rw [fullText, toList_renderUntil_empty, List.take_of_length_le]
  unfold length
  omega

theorem mem_grammar_iff {cs : List Char} : cs ∈ grammar ↔ ∃ p, IsProper p ∧ p.fullText.toList = cs := by
  simp only [grammar, mem_separated_iff, toList_fullText]
  constructor
  · rintro ⟨parts, hne, hparts, rfl⟩
    obtain ⟨segments, hsegments, rfl⟩ := exists_map_eq fun part hpart => Segment.mem_grammar_iff.1 (hparts part hpart)
    exact ⟨⟨segments⟩, ⟨mt (congrArg (List.map _)) hne, hsegments⟩, rfl⟩
  · rintro ⟨p, ⟨hne, hsegments⟩, rfl⟩
    refine ⟨_, mt List.map_eq_nil_iff.1 hne, ?_, rfl⟩
    rw [List.forall_mem_map]
    exact fun seg hseg => Segment.mem_grammar_iff.2 ⟨seg, hsegments seg hseg, rfl⟩

theorem pieces_fullText (h : p.IsProper) :
    pieces separator p.fullText.toList = p.segments.map fun seg => (seg.render markText).toList := by
  rw [toList_fullText, pieces_eq_splitOn, List.splitOn_intercalate]
  · rw [List.forall_mem_map]
    exact fun seg hseg => Segment.not_mem_of_mem_grammar (Segment.mem_grammar_iff.2 ⟨seg, h.2 seg hseg, rfl⟩)
  · exact mt List.map_eq_nil_iff.1 h.1

/-- A path is read from the text that it is written as. -/
theorem parse_eq_ok_iff_fullText : parse text = .ok p ↔ p.IsProper ∧ p.fullText = text := by
  constructor
  · intro h
    refine ⟨⟨segments_ne_nil h, fun seg hseg => name_of_mem h hseg⟩, String.toList_inj.1 ?_⟩
    rw [toList_fullText, render_segments h, pieces_eq_splitOn, List.intercalate_splitOn]
  · rintro ⟨hproper, rfl⟩
    rw [parse_eq_ok_iff, ofText?, pieces_fullText hproper, Segment.mapM_render hproper.2]
    rfl

theorem exists_parse_iff : (∃ p, parse text = .ok p) ↔ text.toList ∈ grammar := by
  simp only [parse_eq_ok_iff_fullText, mem_grammar_iff, String.toList_inj]

theorem isQualifiedName_of_mem_grammar (h : text.toList ∈ grammar) : isQualifiedName text = true := by
  obtain ⟨parts, hne, hparts, htext⟩ := mem_separated_iff.1 h
  refine isQualifiedName_iff.2 (mem_separated_iff.2 ⟨parts, hne, fun part hpart => ?_, htext⟩)
  have hsegment := hparts part hpart
  obtain ⟨seg, hname, rfl⟩ := Segment.mem_grammar_iff.1 hsegment
  refine ⟨?_, Segment.not_mem_of_mem_grammar hsegment⟩
  rw [Segment.toList_render]
  exact mt List.append_eq_nil_iff.1 fun h => hname.1 h.1

/-- **Paths and their texts.** The texts that can be read as paths are those of the grammar, and the others
are refused. They are qualified names, and a path is written to its end as the text that it was read from. A path of
segments with proper names is read from the text that it is written as. -/
theorem parse_grammar :
    (∀ text, (∃ p, parse text = .ok p) ↔ text.toList ∈ grammar) ∧
    (∀ text, text.toList ∉ grammar → parse text = .error (.of (.invalidPath text))) ∧
    (∀ text p, parse text = .ok p →
      isQualifiedName text = true ∧ p.renderUntil (p.length - 1) .empty = text) ∧
    ∀ segments : List Segment, segments ≠ [] → (∀ seg ∈ segments, seg.name.toList ∈ Segment.nameGrammar) →
      parse (renderUntil ⟨segments⟩ (segments.length - 1) .empty) = .ok ⟨segments⟩ := by
  refine ⟨fun text => exists_parse_iff, fun text htext => ?_, fun text p hparse => ⟨?_, ?_⟩,
    fun segments hne hnames => ?_⟩
  · have hnone : ofText? text = none := by
      refine Option.eq_none_iff_forall_ne_some.2 fun p hp => htext ?_
      exact exists_parse_iff.1 ⟨p, parse_eq_ok_iff.2 hp⟩
    rw [parse, hnone]
  · exact isQualifiedName_of_mem_grammar (exists_parse_iff.1 ⟨p, hparse⟩)
  · exact (parse_eq_ok_iff_fullText.1 hparse).2
  · exact parse_eq_ok_iff_fullText.2 ⟨⟨hne, hnames⟩, rfl⟩

/-- A path with a mark at one of its names is read from its text, and a text with an empty part is none. -/
theorem parse_grammar_marked :
    parse "a؟:b" = .ok ⟨[⟨"a", true⟩, ⟨"b", false⟩]⟩ ∧ "a؟:b".toList ∈ grammar ∧ "a؟::b".toList ∉ grammar ∧
      parse "a؟::b" = .error (.of (.invalidPath "a؟::b")) := by
  obtain ⟨hexists, hrefused, -, hread⟩ := parse_grammar
  have hnames : ∀ seg ∈ [(⟨"a", true⟩ : Segment), ⟨"b", false⟩], seg.name.toList ∈ Segment.nameGrammar := by
    rintro seg hseg
    rcases List.mem_pair.1 hseg with rfl | rfl
    · exact show _ ∧ _ by decide
    · exact show _ ∧ _ by decide
  have hparse : parse "a؟:b" = .ok ⟨[⟨"a", true⟩, ⟨"b", false⟩]⟩ := hread _ (List.cons_ne_nil _ _) hnames
  have hempty : "a؟::b".toList ∉ grammar := by
    refine mt (hexists _).2 ?_
    rintro ⟨p, hp⟩
    cases hp
  exact ⟨hparse, (hexists _).1 ⟨_, hparse⟩, hempty, hrefused _ hempty⟩

end Path

end TreeScript
