import TreeScript.Json.Printer
import TreeScript.Proofs.Json.Reading

/-!
# Quoted texts

`Json.Quotes text written` says how a text is written as a JSON string, character by character
(`Json.Escapes`). `Json.quote` writes it like this (`quotes_quote`), on one line
(`Quotes.newline_not_mem`), and a reader gets the text back (`Quotes.read?_eq`).
-/

namespace TreeScript.Json

/-- The characters that are escaped by a letter. -/
def lettered : List (Char × Char) :=
  [('"', '"'), ('\\', '\\'), ('\n', 'n'), ('\r', 'r'), ('\t', 't'), ('\x08', 'b'), ('\x0c', 'f')]

def hexDigits : List Char :=
  ['0', '1', '2', '3', '4', '5', '6', '7', '8', '9', 'a', 'b', 'c', 'd', 'e', 'f']

/-- How a character is written: by its letter, below a blank otherwise by its number, and as it is
everywhere else. -/
inductive Escapes : Char → List Char → Prop
  | letter {c letter : Char} (h : (c, letter) ∈ lettered) : Escapes c ['\\', letter]
  | number {c high low : Char} (h : ∀ letter, (c, letter) ∉ lettered) (hc : c.toNat < 32)
      (hhigh : hexDigits[c.toNat / 16]? = some high) (hlow : hexDigits[c.toNat % 16]? = some low) :
      Escapes c ['\\', 'u', '0', '0', high, low]
  | plain {c : Char} (h : ∀ letter, (c, letter) ∉ lettered) (hc : 32 ≤ c.toNat) : Escapes c [c]

/-- A text as a JSON string. -/
def Quotes (text written : String) : Prop :=
  ∃ parts, List.Forall₂ Escapes text.toList parts ∧ written.toList = '"' :: (parts.flatten ++ ['"'])

theorem escapes_escapeChar (c : Char) : Escapes c (escapeChar c) := by
  have hdigits : ∀ n < 32, hexDigits[n / 16]? = some (hexDigit (n / 16)) ∧
      hexDigits[n % 16]? = some (hexDigit (n % 16)) := by decide
  have hnat {n : Nat} (h : c.toNat = n) : c = Char.ofNat n := by rw [← h, Char.ofNat_toNat]
  unfold escapeChar
  split_ifs with hquote hslash hline hreturn htab hback hform hcontrol
  · exact .letter (by simp [hquote, lettered])
  · exact .letter (by simp [hslash, lettered])
  · exact .letter (by simp [hline, lettered])
  · exact .letter (by simp [hreturn, lettered])
  · exact .letter (by simp [htab, lettered])
  · exact .letter (by simp [hnat hback, lettered])
  · exact .letter (by simp [hnat hform, lettered])
  all_goals
    have hletter : ∀ letter, (c, letter) ∉ lettered := by
      rintro letter hmem
      simp only [lettered, List.mem_cons, Prod.mk.injEq, List.not_mem_nil, or_false] at hmem
      rcases hmem with h | h | h | h | h | h | h <;> simp_all
  · exact .number hletter hcontrol (hdigits _ hcontrol).1 (hdigits _ hcontrol).2
  · exact .plain hletter (Nat.le_of_not_lt hcontrol)

theorem quotes_quote (text : String) : Quotes text (quote text) := by
  refine ⟨text.toList.map escapeChar, ?_, ?_⟩
  · rw [List.forall₂_map_right_iff]
    exact List.forall₂_same.2 fun c _ => escapes_escapeChar c
  · simp [quote, List.flatMap_def]

variable {c : Char} {part : List Char} {text written : String}

theorem Escapes.newline_not_mem (h : Escapes c part) : '\n' ∉ part := by
  have hdigits : '\n' ∉ hexDigits := by decide
  cases h with
  | letter h =>
    have hletters : ∀ p ∈ lettered, '\n' ∉ ['\\', p.2] := by decide
    exact hletters _ h
  | number h hc hhigh hlow =>
    have hne {d : Char} {n : Nat} (hd : hexDigits[n]? = some d) : '\n' ≠ d := fun heq =>
      hdigits (heq ▸ List.mem_of_getElem? hd)
    simp [hne hhigh, hne hlow]
  | plain h hc =>
    rintro hmem
    cases List.mem_singleton.1 hmem
    exact absurd hc (by decide)

theorem Quotes.newline_not_mem (h : Quotes text written) : '\n' ∉ written.toList := by
  obtain ⟨parts, hparts, hwritten⟩ := h
  have hflat : '\n' ∉ parts.flatten := by
    generalize text.toList = cs at hparts
    clear hwritten
    induction hparts with
    | nil => exact List.not_mem_nil
    | cons h _ ih => simp [h.newline_not_mem, ih]
  simp [hwritten, hflat]

theorem Escapes.spells (h : Escapes c part) {cs rest : List Char} (hrest : Spells cs rest) :
    Spells (c :: cs) (part ++ rest) := by
  cases h with
  | letter h =>
    have hletters : ∀ p ∈ lettered, shortEscape? p.2 = some p.1 := by decide
    exact .short (hletters _ h) hrest
  | @number high low h hc hhigh hlow =>
    have hunits : ∀ n < 32, (hexDigits[n / 16]?.bind fun high => hexDigits[n % 16]?.bind fun low =>
      unit? '0' '0' high low) = some n := by decide
    have hunit : unit? '0' '0' high low = some c.toNat := by simpa [hhigh, hlow] using hunits c.toNat hc
    have hspells := Spells.unit hunit (.inl (by omega)) hrest
    rwa [Char.ofNat_toNat] at hspells
  | plain h hc =>
    refine .plain ?_ ?_ hc hrest
    · rintro rfl
      exact h '"' (by decide)
    · rintro rfl
      exact h '\\' (by decide)

/-- A quoted text is read as the text. -/
theorem Quotes.read?_eq (h : Quotes text written) : read? written = some (string text) := by
  obtain ⟨parts, hparts, hwritten⟩ := h
  have hspells : Spells text.toList parts.flatten := by
    generalize text.toList = cs at hparts
    clear hwritten
    induction hparts with
    | nil => exact .done
    | cons h _ ih => exact h.spells ih
  have hwrites := Token.Writes.string hspells
  rw [String.ofList_toList] at hwrites
  refine read?_eq_some_iff.2 ⟨?_, Nat.zero_le _⟩
  have hblanks : ∀ b ∈ ([] : List Char), isBlank b = true := fun _ h => by cases h
  have hlayout := Layout.token hblanks hwrites (.blanks hblanks)
  rw [hwritten]
  simpa [tokens] using hlayout

end TreeScript.Json
