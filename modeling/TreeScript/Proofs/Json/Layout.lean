import Mathlib.Data.List.Chain
import Mathlib.Data.List.TakeWhile
import TreeScript.Json.Token

/-!
# The texts of tokens

`Token.Writes` says how a token is written: a number by its digits, perhaps with a fraction and an exponent, and
a string between quotes, each of its characters as it is or by an escape. A `Layout` is a text of tokens in a row with
any blanks around them.

Every text that is read as tokens is a layout of them (`layout_of_scan?`). The other way round, two numbers in a row
could be read as one; apart from that (`Separable`), every layout is read as its tokens (`Layout.scan?_eq`).
-/

namespace TreeScript.Json

/-! ## Numbers -/

namespace Digits

/-- One or more decimal digits. -/
def IsRow (ds : List Char) : Prop := ds ≠ [] ∧ ∀ c ∈ ds, c.isDigit = true

/-- A text does not start with a character that satisfies `p`. -/
def StartsWithout (p : Char → Bool) (cs : List Char) : Prop := ∀ c ∈ cs.head?, p c = false

/-- A fraction is a point with digits after it. -/
inductive WritesFraction : Option (List Char) → List Char → Prop
  | absent : WritesFraction none []
  | point {ds : List Char} (h : IsRow ds) : WritesFraction (some ds) ('.' :: ds)

/-- An exponent is a mark and digits, perhaps with a sign between them. -/
inductive WritesExponent : Option Int → List Char → Prop
  | absent : WritesExponent none []
  | bare {mark : Char} {ds : List Char} (hmark : mark = 'e' ∨ mark = 'E') (h : IsRow ds) :
      WritesExponent (some (value ds)) (mark :: ds)
  | plus {mark : Char} {ds : List Char} (hmark : mark = 'e' ∨ mark = 'E') (h : IsRow ds) :
      WritesExponent (some (value ds)) (mark :: '+' :: ds)
  | minus {mark : Char} {ds : List Char} (hmark : mark = 'e' ∨ mark = 'E') (h : IsRow ds) :
      WritesExponent (some (-(value ds : Int))) (mark :: '-' :: ds)

/-- A number is written as its sign, its whole part, which starts with a zero only if it is one, its fraction and
its exponent. -/
inductive Writes : Digits → List Char → Prop
  | parts {negative : Bool} {whole fs es : List Char} {fraction : Option (List Char)} {exponent : Option Int}
      (hwhole : IsRow whole) (hzero : whole.head? = some '0' → whole.length = 1)
      (hfraction : WritesFraction fraction fs) (hexponent : WritesExponent exponent es) :
      Writes ⟨negative, whole, fraction, exponent⟩
        ((if negative then ['-'] else []) ++ (whole ++ (fs ++ es)))

/-- Whether a character goes on with a number. -/
def continues (c : Char) : Bool := c.isDigit || c = '.' || c = 'e' || c = 'E'

variable {ds cs rest : List Char}

theorem take?_append (h : IsRow ds) (hrest : StartsWithout Char.isDigit rest) :
    take? (ds ++ rest) = some (ds, rest) := by
  have htake : rest.takeWhile Char.isDigit = [] := by
    cases rest with
    | nil => rfl
    | cons c rest => simp [hrest c rfl]
  have hdrop : rest.dropWhile Char.isDigit = rest := by
    cases rest with
    | nil => rfl
    | cons c rest => simp [hrest c rfl]
  have hfront : (ds ++ rest).takeWhile Char.isDigit = ds := by
    rw [List.takeWhile_append_of_pos h.2, htake, List.append_nil]
  have hback : (ds ++ rest).dropWhile Char.isDigit = rest := by
    rw [List.dropWhile_append_of_pos h.2, hdrop]
  obtain ⟨c, ds', rfl⟩ := List.exists_cons_of_ne_nil h.1
  rw [take?, hfront, hback]

theorem startsWithout_digit (hrest : StartsWithout continues rest) : StartsWithout Char.isDigit rest := by
  intro c hc
  have := hrest c hc
  simp_all [continues]

theorem WritesExponent.startsWithout {e : Option Int} (h : WritesExponent e cs)
    (hrest : StartsWithout continues rest) : StartsWithout (fun c => c.isDigit || c = '.') (cs ++ rest) := by
  cases h with
  | absent =>
    intro c hc
    have := hrest c hc
    simp_all [continues]
  | bare hmark _ | plus hmark _ | minus hmark _ =>
    intro c hc
    cases hc
    rcases hmark with rfl | rfl <;> decide

theorem WritesFraction.startsWithout {f : Option (List Char)} (h : WritesFraction f cs)
    (hrest : StartsWithout (fun c => c.isDigit || c = '.') rest) : StartsWithout Char.isDigit (cs ++ rest) := by
  cases h with
  | absent =>
    intro c hc
    have := hrest c hc
    simp_all
  | point _ =>
    intro c hc
    cases hc
    decide

theorem fraction?_append {f : Option (List Char)} (h : WritesFraction f cs)
    (hrest : StartsWithout (fun c => c.isDigit || c = '.') rest) : fraction? (cs ++ rest) = some (f, rest) := by
  cases h with
  | absent =>
    rw [List.nil_append]
    unfold fraction?
    split
    · next c =>
      have := hrest '.' rfl
      simp at this
    · rfl
  | point hds =>
    have hdigits : StartsWithout Char.isDigit rest := by
      intro c hc
      have := hrest c hc
      simp_all
    rw [List.cons_append, fraction?, take?_append hds hdigits]
    rfl

theorem signedExponent?_of_row (h : IsRow ds) (hrest : StartsWithout Char.isDigit rest) :
    signedExponent? (ds ++ rest) = some ((value ds : Int), rest) := by
  obtain ⟨c, ds', rfl⟩ := List.exists_cons_of_ne_nil h.1
  have hc : c.isDigit = true := h.2 c (by simp)
  have htake := take?_append h hrest
  unfold signedExponent?
  split
  · next heq =>
    cases heq
    cases hc
  · next heq =>
    cases heq
    cases hc
  · rw [htake]
    rfl

theorem exponent?_append {e : Option Int} (h : WritesExponent e cs) (hrest : StartsWithout continues rest) :
    exponent? (cs ++ rest) = some (e, rest) := by
  have hdigit := startsWithout_digit hrest
  cases h with
  | absent =>
    rw [List.nil_append]
    unfold exponent?
    split
    · have := hrest 'e' rfl
      cases this
    · have := hrest 'E' rfl
      cases this
    · rfl
  | bare hmark hds =>
    rcases hmark with rfl | rfl
    all_goals
      simp only [List.cons_append, exponent?, signedExponent?_of_row hds hdigit]
      rfl
  | plus hmark hds =>
    rcases hmark with rfl | rfl
    all_goals
      simp only [List.cons_append, exponent?, signedExponent?, take?_append hds hdigit]
      rfl
  | minus hmark hds =>
    rcases hmark with rfl | rfl
    all_goals
      simp only [List.cons_append, exponent?, signedExponent?, take?_append hds hdigit]
      rfl

/-- A number is read to its end. -/
theorem read?_append {d : Digits} (h : Writes d cs) (hrest : StartsWithout continues rest) :
    read? (cs ++ rest) = some (d, rest) := by
  obtain @⟨negative, whole, fs, es, fraction, exponent, hwhole, hzero, hfraction, hexponent⟩ := h
  have hexp := hexponent.startsWithout hrest
  have hunsigned : unsigned? negative (whole ++ (fs ++ (es ++ rest))) =
      some (⟨negative, whole, fraction, exponent⟩, rest) := by
    have hlead : ¬(whole.head? = some '0' ∧ whole.length ≠ 1) := fun h => h.2 (hzero h.1)
    simp only [unsigned?, take?_append hwhole (hfraction.startsWithout hexp), fraction?_append hfraction hexp,
      exponent?_append hexponent hrest, Option.bind_eq_bind, Option.bind_some, Bool.and_eq_true, decide_eq_true_eq]
    rw [if_neg (by simpa using hlead)]
    rfl
  cases negative with
  | true => simpa [read?] using hunsigned
  | false =>
    obtain ⟨c, whole, rfl⟩ := List.exists_cons_of_ne_nil hwhole.1
    have hc : c.isDigit = true := hwhole.2 c (by simp)
    simp only [Bool.false_eq_true, ↓reduceIte, List.nil_append, List.append_assoc] at hunsigned ⊢
    unfold read?
    split
    · next heq =>
      cases heq
      cases hc
    · exact hunsigned

theorem Writes.exists_cons {d : Digits} (h : Writes d cs) :
    ∃ c rest, cs = c :: rest ∧ (c = '-' ∨ c.isDigit = true) := by
  obtain @⟨negative, whole, fs, es, fraction, exponent, hwhole, hzero, hfraction, hexponent⟩ := h
  cases negative with
  | true => exact ⟨'-', whole ++ (fs ++ es), rfl, .inl rfl⟩
  | false =>
    obtain ⟨c, whole, rfl⟩ := List.exists_cons_of_ne_nil hwhole.1
    exact ⟨c, whole ++ (fs ++ es), rfl, .inr (hwhole.2 c (by simp))⟩

theorem eq_append_of_take? (h : take? cs = some (ds, rest)) : cs = ds ++ rest ∧ IsRow ds := by
  unfold take? at h
  split at h
  · cases h
  · next hne =>
    cases h
    refine ⟨List.takeWhile_append_dropWhile.symm, hne, ?_⟩
    intro c hc
    exact List.mem_takeWhile_imp hc

theorem eq_append_of_fraction? {f : Option (List Char)} (h : fraction? cs = some (f, rest)) :
    ∃ fs, cs = fs ++ rest ∧ WritesFraction f fs := by
  unfold fraction? at h
  split at h
  · next cs =>
    obtain ⟨⟨ds, rest'⟩, htake, heq⟩ := Option.map_eq_some_iff.mp h
    cases heq
    obtain ⟨rfl, hds⟩ := eq_append_of_take? htake
    exact ⟨'.' :: ds, rfl, .point hds⟩
  · cases h
    exact ⟨[], rfl, .absent⟩

theorem eq_append_of_signedExponent? {mark : Char} {e : Int} (hmark : mark = 'e' ∨ mark = 'E')
    (h : signedExponent? cs = some (e, rest)) : ∃ es, mark :: cs = es ++ rest ∧ WritesExponent (some e) es := by
  unfold signedExponent? at h
  split at h
  all_goals
    obtain ⟨⟨ds, rest'⟩, htake, heq⟩ := Option.map_eq_some_iff.mp h
    cases heq
    obtain ⟨rfl, hds⟩ := eq_append_of_take? htake
  · exact ⟨mark :: '-' :: ds, rfl, .minus hmark hds⟩
  · exact ⟨mark :: '+' :: ds, rfl, .plus hmark hds⟩
  · exact ⟨mark :: ds, rfl, .bare hmark hds⟩

theorem eq_append_of_exponent? {e : Option Int} (h : exponent? cs = some (e, rest)) :
    ∃ es, cs = es ++ rest ∧ WritesExponent e es := by
  unfold exponent? at h
  split at h
  · obtain ⟨⟨e, rest'⟩, hsigned, heq⟩ := Option.map_eq_some_iff.mp h
    cases heq
    exact eq_append_of_signedExponent? (.inl rfl) hsigned
  · obtain ⟨⟨e, rest'⟩, hsigned, heq⟩ := Option.map_eq_some_iff.mp h
    cases heq
    exact eq_append_of_signedExponent? (.inr rfl) hsigned
  · cases h
    exact ⟨[], rfl, .absent⟩

theorem eq_append_of_unsigned? {negative : Bool} {d : Digits} (h : unsigned? negative cs = some (d, rest)) :
    ∃ w, cs = w ++ rest ∧ d.Writes ((if negative then ['-'] else []) ++ w) := by
  simp only [unsigned?, Option.bind_eq_bind, Option.bind_eq_some_iff, Prod.exists, Bool.and_eq_true,
    decide_eq_true_eq] at h
  obtain ⟨whole, rest₁, hwhole, h⟩ := h
  split at h
  · cases h
  · next hzero =>
    simp only [Option.bind_eq_some_iff, Prod.exists] at h
    obtain ⟨fraction, rest₂, hfraction, exponent, rest₃, hexponent, heq⟩ := h
    cases heq
    obtain ⟨rfl, hrow⟩ := eq_append_of_take? hwhole
    obtain ⟨fs, rfl, hfs⟩ := eq_append_of_fraction? hfraction
    obtain ⟨es, rfl, hes⟩ := eq_append_of_exponent? hexponent
    refine ⟨whole ++ (fs ++ es), by simp, .parts hrow ?_ hfs hes⟩
    intro hhead
    by_contra hne
    exact hzero ⟨hhead, hne⟩

/-- A number that is read is written in front of what is left. -/
theorem eq_append_of_read? {d : Digits} (h : read? cs = some (d, rest)) : ∃ w, cs = w ++ rest ∧ d.Writes w := by
  unfold read? at h
  split at h
  · obtain ⟨w, rfl, hw⟩ := eq_append_of_unsigned? h
    exact ⟨'-' :: w, rfl, hw⟩
  · exact eq_append_of_unsigned? h

end Digits

/-! ## Strings -/

/-- The characters of a string stand as they are, as a short escape, as an escaped number, or, beyond 16 bits, as two
of them. -/
inductive Spells : List Char → List Char → Prop
  | done : Spells [] []
  | plain {c : Char} {cs text : List Char} (hquote : c ≠ '"') (hslash : c ≠ '\\') (hcontrol : 32 ≤ c.toNat)
      (h : Spells cs text) : Spells (c :: cs) (c :: text)
  | short {c e : Char} {cs text : List Char} (he : shortEscape? e = some c) (h : Spells cs text) :
      Spells (c :: cs) ('\\' :: e :: text)
  | unit {a b c d : Char} {u : Nat} {cs text : List Char} (hu : unit? a b c d = some u)
      (hwhole : u < 0xD800 ∨ 0xE000 ≤ u) (h : Spells cs text) :
      Spells (Char.ofNat u :: cs) ('\\' :: 'u' :: a :: b :: c :: d :: text)
  | pair {a b c d a' b' c' d' : Char} {u v : Nat} {cs text : List Char} (hu : unit? a b c d = some u)
      (hfirst : 0xD800 ≤ u ∧ u < 0xDC00) (hv : unit? a' b' c' d' = some v) (hsecond : 0xDC00 ≤ v ∧ v < 0xE000)
      (h : Spells cs text) :
      Spells (Char.ofNat (0x10000 + (u - 0xD800) * 0x400 + (v - 0xDC00)) :: cs)
        ('\\' :: 'u' :: a :: b :: c :: d :: '\\' :: 'u' :: a' :: b' :: c' :: d' :: text)

/-- A string is read to its closing quote. -/
theorem stringRest?_append {cs text rest : List Char} (h : Spells cs text) :
    stringRest? (text ++ '"' :: rest) = some (cs, rest) := by
  induction h with
  | done => rfl
  | plain hquote hslash hcontrol _ ih =>
    rw [List.cons_append, stringRest?]
    · rw [if_neg (by omega), ih]
      rfl
    all_goals simp_all
  | @short c e cs text he _ ih =>
    have hu : e ≠ 'u' := by
      rintro rfl
      cases he
    rw [List.cons_append, List.cons_append, stringRest?]
    · rw [he, ih]
      rfl
    · simp_all
  | @unit a b c d u cs text hu hwhole _ ih =>
    have hfirst : (0xD800 ≤ u && u < 0xDC00) = false := by
      simp only [Bool.and_eq_false_iff, decide_eq_false_iff_not]
      omega
    have hsecond : (0xDC00 ≤ u && u < 0xE000) = false := by
      simp only [Bool.and_eq_false_iff, decide_eq_false_iff_not]
      omega
    simp only [List.cons_append]
    rw [stringRest?]
    simp only [hu, hfirst, hsecond, ih, Bool.false_eq_true, ↓reduceIte, Option.map_some]
  | @pair a b c d a' b' c' d' u v cs text hu hfirst hv hsecond _ ih =>
    have hfirst' : (0xD800 ≤ u && u < 0xDC00) = true := by simp [hfirst]
    have hsecond' : (0xDC00 ≤ v && v < 0xE000) = true := by simp [hsecond]
    simp only [List.cons_append]
    rw [stringRest?]
    simp only [hu, hv, hfirst', hsecond', ih, ↓reduceIte, Option.map_some]

/-- A string that is read is spelled in front of its closing quote. -/
theorem eq_append_of_stringRest? {cs s rest : List Char} (h : stringRest? cs = some (s, rest)) :
    ∃ text, cs = text ++ '"' :: rest ∧ Spells s text := by
  fun_induction stringRest? cs generalizing s with
  | case1 rest' =>
    cases h
    exact ⟨[], rfl, .done⟩
  | case4 a b c d u hu hfirst a' b' c' d' cs v hv hsecond ih =>
    obtain ⟨⟨s, rest⟩, hs, heq⟩ := Option.map_eq_some_iff.mp h
    cases heq
    obtain ⟨text, rfl, htext⟩ := ih hs
    refine ⟨_, rfl, .pair hu ?_ hv ?_ htext⟩
    · simpa using hfirst
    · simpa using hsecond
  | case8 a b c d cs u hu hfirst hsecond ih =>
    obtain ⟨⟨s, rest⟩, hs, heq⟩ := Option.map_eq_some_iff.mp h
    cases heq
    obtain ⟨text, rfl, htext⟩ := ih hs
    refine ⟨_, rfl, .unit hu ?_ htext⟩
    simp only [Bool.and_eq_true, decide_eq_true_eq] at hfirst hsecond
    omega
  | case9 e cs _ c he ih =>
    obtain ⟨⟨s, rest⟩, hs, heq⟩ := Option.map_eq_some_iff.mp h
    cases heq
    obtain ⟨text, rfl, htext⟩ := ih hs
    exact ⟨_, rfl, .short he htext⟩
  | case12 c cs hquote _ hslash hcontrol ih =>
    obtain ⟨⟨s, rest⟩, hs, heq⟩ := Option.map_eq_some_iff.mp h
    cases heq
    obtain ⟨text, rfl, htext⟩ := ih hs
    refine ⟨_, rfl, .plain hquote ?_ (Nat.not_lt.mp hcontrol) htext⟩
    intro hc
    cases text with
    | nil => exact hslash _ _ hc rfl
    | cons e text => exact hslash _ _ hc rfl
  | _ => cases h

/-! ## Tokens -/

namespace Token

/-- Whether a token is a number. -/
def isNumber : Token → Bool
  | int _ | float _ => true
  | _ => false

/-- An integer is written without fraction and exponent and fits into 64 bits, with or without a sign. Minus zero is
not an integer. -/
inductive Writes : Token → List Char → Prop
  | null : Writes null ['n', 'u', 'l', 'l']
  | true : Writes (bool true) ['t', 'r', 'u', 'e']
  | false : Writes (bool false) ['f', 'a', 'l', 's', 'e']
  | natural {ds cs : List Char} (h : Digits.Writes ⟨Bool.false, ds, none, none⟩ cs)
      (hfits : Digits.value ds < Nat.pow 2 64) : Writes (int (Digits.value ds)) cs
  | negative {ds cs : List Char} (h : Digits.Writes ⟨Bool.true, ds, none, none⟩ cs) (hpos : 0 < Digits.value ds)
      (hfits : Digits.value ds ≤ Nat.pow 2 63) : Writes (int (-(Digits.value ds : Int))) cs
  | float {d : Digits} {x : Float} {cs : List Char} (h : d.Writes cs) (hx : d.toToken? = some (float x)) :
      Writes (float x) cs
  | string {cs text : List Char} (h : Spells cs text) : Writes (string (String.ofList cs)) ('"' :: (text ++ ['"']))
  | openArray : Writes openArray ['[']
  | closeArray : Writes closeArray [']']
  | openObject : Writes openObject ['\x7b']
  | closeObject : Writes closeObject ['\x7d']
  | comma : Writes comma [',']
  | colon : Writes colon [':']

variable {t : Token} {cs rest : List Char}

/-- A number is read from its digits. -/
theorem next?_of_digits {d : Digits} (h : d.Writes cs) (ht : d.toToken? = some t)
    (hrest : Digits.StartsWithout Digits.continues rest) : next? (cs ++ rest) = some (t, rest) := by
  have hread := Digits.read?_append h hrest
  obtain ⟨c, cs, rfl, hc⟩ := h.exists_cons
  unfold next?
  split
  case h_11 => simp only [hread, Option.bind_some, ht, Option.map_some]
  all_goals
    next heq =>
      obtain ⟨rfl, _⟩ := List.cons.inj heq
      rcases hc with hc | hc <;> cases hc

/-- A token is read to its end, if what follows a number does not go on with it. -/
theorem next?_append (h : Writes t cs)
    (hrest : t.isNumber = Bool.true → Digits.StartsWithout Digits.continues rest) :
    next? (cs ++ rest) = some (t, rest) := by
  cases h with
  | natural h hfits =>
    apply next?_of_digits h _ (hrest rfl)
    simp [Digits.toToken?, hfits]
  | negative h hpos hfits =>
    apply next?_of_digits h _ (hrest rfl)
    simp [Digits.toToken?, hpos, hfits]
  | float h hx => exact next?_of_digits h hx (hrest rfl)
  | string h => simp [next?, stringRest?_append h]
  | _ => rfl

/-- A token starts with a character that is no blank and, unless it is a number, does not go on with one. -/
theorem Writes.head (h : Writes t cs) : ∃ c rest, cs = c :: rest ∧ isBlank c = Bool.false ∧
    (t.isNumber = Bool.false → Digits.continues c = Bool.false) := by
  have hdigits {d : Digits} (hd : d.Writes cs) (ht : t.isNumber = Bool.true) : ∃ c rest, cs = c :: rest ∧
      isBlank c = Bool.false ∧ (t.isNumber = Bool.false → Digits.continues c = Bool.false) := by
    obtain ⟨c, rest, rfl, hc⟩ := hd.exists_cons
    refine ⟨c, rest, rfl, ?_, by simp [ht]⟩
    rcases hc with rfl | hc
    · decide
    · apply Bool.eq_false_iff.mpr
      intro hblank
      simp only [isBlank, Bool.or_eq_true, decide_eq_true_eq] at hblank
      rcases hblank with ((rfl | rfl) | rfl) | rfl <;> cases hc
  cases h with
  | natural hd _ | negative hd _ _ | float hd _ => exact hdigits hd rfl
  | _ => exact ⟨_, _, rfl, by decide, fun _ => by decide⟩

theorem writes_of_toToken? {d : Digits} (h : d.Writes cs) (ht : d.toToken? = some t) : t.Writes cs := by
  obtain ⟨negative, whole, fraction, exponent⟩ := d
  have hword := ht
  cases negative
  all_goals
    simp only [Digits.toToken?, Bool.false_eq_true, ↓reduceIte] at ht
    split at ht
  case false.isTrue hint =>
    simp only [Bool.and_eq_true, Option.isNone_iff_eq_none, decide_eq_true_eq] at hint
    obtain ⟨⟨rfl, rfl⟩, hfits⟩ := hint
    cases ht
    exact .natural h hfits
  case true.isTrue hint =>
    simp only [Bool.and_eq_true, Option.isNone_iff_eq_none, decide_eq_true_eq] at hint
    obtain ⟨⟨rfl, rfl⟩, hpos, hfits⟩ := hint
    cases ht
    exact .negative h hpos hfits
  all_goals
    obtain ⟨x, _, rfl⟩ := Option.map_eq_some_iff.mp ht
    exact .float h hword

/-- A token that is read is written in front of what is left. -/
theorem eq_append_of_next? (h : next? cs = some (t, rest)) : ∃ w, cs = w ++ rest ∧ t.Writes w := by
  unfold next? at h
  split at h
  case h_7 =>
    obtain ⟨⟨s, rest⟩, hs, heq⟩ := Option.map_eq_some_iff.mp h
    cases heq
    obtain ⟨text, rfl, htext⟩ := eq_append_of_stringRest? hs
    exact ⟨'"' :: (text ++ ['"']), by simp, .string htext⟩
  case h_11 =>
    obtain ⟨⟨d, rest⟩, hd, h⟩ := Option.bind_eq_some_iff.mp h
    obtain ⟨t, ht, heq⟩ := Option.map_eq_some_iff.mp h
    cases heq
    obtain ⟨w, rfl, hw⟩ := Digits.eq_append_of_read? hd
    exact ⟨w, rfl, writes_of_toToken? hw ht⟩
  all_goals
    cases h
    exact ⟨_, rfl, by constructor⟩

end Token

/-! ## Layouts -/

/-- A text of tokens in a row, with any blanks before, between and after them. -/
inductive Layout : List Token → List Char → Prop
  | blanks {bs : List Char} (hbs : ∀ b ∈ bs, isBlank b = true) : Layout [] bs
  | token {t : Token} {ts : List Token} {bs cs rest : List Char} (hbs : ∀ b ∈ bs, isBlank b = true)
      (ht : t.Writes cs) (h : Layout ts rest) : Layout (t :: ts) (bs ++ (cs ++ rest))

/-- No number stands right after another one. -/
def Separable (ts : List Token) : Prop := ts.IsChain fun t u => t.isNumber = false ∨ u.isNumber = false

namespace Layout

variable {t : Token} {ts : List Token} {text : List Char}

/-- A layout does not go on with a number unless it starts with one. -/
theorem startsWithout (h : Layout ts text) (hhead : ∀ t ∈ ts.head?, t.isNumber = false) :
    Digits.StartsWithout Digits.continues text := by
  have hblank {b : Char} (hb : isBlank b = true) : Digits.continues b = false := by
    simp only [isBlank, Bool.or_eq_true, decide_eq_true_eq] at hb
    rcases hb with ((rfl | rfl) | rfl) | rfl <;> decide
  cases h with
  | blanks hbs =>
    intro c hc
    exact hblank (hbs c (List.mem_of_mem_head? hc))
  | @token t ts bs cs rest hbs ht _ =>
    intro c hc
    cases bs with
    | nil =>
      obtain ⟨c', cs, rfl, _, hnumber⟩ := ht.head
      cases hc
      exact hnumber (hhead t rfl)
    | cons b bs =>
      cases hc
      exact hblank (hbs _ (by simp))

/-- Every token takes up a character at least. -/
theorem length_le (h : Layout ts text) : ts.length ≤ text.length := by
  induction h with
  | blanks _ => simp
  | token _ ht _ ih =>
    obtain ⟨c, cs, rfl, _⟩ := ht.head
    simp only [List.length_cons, List.length_append]
    omega

theorem scanUpTo?_eq {bound : Nat} (h : Layout ts text) (hts : Separable ts) (hbound : ts.length ≤ bound) :
    Token.scanUpTo? bound text = some ts := by
  induction h generalizing bound with
  | @blanks bs hbs =>
    have hdrop : bs.dropWhile isBlank = [] := List.dropWhile_eq_nil_iff.mpr hbs
    cases bound with
    | zero => simp [Token.scanUpTo?, hdrop]
    | succ bound => simp [Token.scanUpTo?, hdrop]
  | @token t ts bs cs rest hbs ht h ih =>
    obtain ⟨bound, rfl⟩ : ∃ k, bound = k + 1 := Nat.exists_eq_add_one.mpr (by simp at hbound; omega)
    have hnext : Token.next? (cs ++ rest) = some (t, rest) := by
      apply Token.next?_append ht
      intro hnumber
      apply h.startsWithout
      intro u hu
      exact (hts.rel_head? hu).resolve_left (by simp [hnumber])
    have hrest := ih hts.tail (by simpa using hbound)
    have hdrop : (bs ++ (cs ++ rest)).dropWhile isBlank = cs ++ rest := by
      obtain ⟨c, cs, rfl, hc, _⟩ := ht.head
      rw [List.dropWhile_append_of_pos hbs]
      simp [hc]
    obtain ⟨c, cs, rfl, _⟩ := ht.head
    rw [List.cons_append] at hdrop hnext
    simp only [Token.scanUpTo?, List.cons_append, hdrop, hnext, hrest, Option.map_some]

/-- A layout of separable tokens is read as these tokens. -/
theorem scan?_eq (h : Layout ts text) (hts : Separable ts) : Token.scan? text = some ts :=
  h.scanUpTo?_eq hts h.length_le

end Layout

theorem layout_of_scanUpTo? {bound : Nat} {ts : List Token} {text : List Char}
    (h : Token.scanUpTo? bound text = some ts) : Layout ts text := by
  induction bound generalizing ts text with
  | zero =>
    unfold Token.scanUpTo? at h
    split at h
    · next hempty =>
      cases h
      exact .blanks (List.dropWhile_eq_nil_iff.mp (List.isEmpty_iff.mp hempty))
    · cases h
  | succ bound ih =>
    have hsplit : text.takeWhile isBlank ++ text.dropWhile isBlank = text := List.takeWhile_append_dropWhile
    unfold Token.scanUpTo? at h
    split at h
    · next hempty =>
      cases h
      exact .blanks (List.dropWhile_eq_nil_iff.mp hempty)
    · next cs hne =>
      split at h
      · cases h
      · next t rest hnext =>
        obtain ⟨ts, hts, rfl⟩ := Option.map_eq_some_iff.mp h
        obtain ⟨w, hw, ht⟩ := Token.eq_append_of_next? hnext
        rw [← hsplit, hw]
        exact .token (fun c hc => List.mem_takeWhile_imp hc) ht (ih hts)

/-- A text that is read as tokens is a layout of them. -/
theorem layout_of_scan? {ts : List Token} {text : List Char} (h : Token.scan? text = some ts) : Layout ts text :=
  layout_of_scanUpTo? h

end TreeScript.Json
