import TreeScript.Json.Reader
import TreeScript.Proofs.Json.Layout

/-!
# Reading what is written

`Json.tokens` writes a document as tokens. The reader, which sees one token at a time, comes back to the document
from them (`Reading.reads_tokens`), as long as it is not nested more deeply than the reader allows.

The other way round, a state of the reader knows all tokens that lead to it (`Reading.history`), and what it holds
is nested within the limit (`Reading.Fits`). So a text is read as a document exactly if it is a layout of the document's
tokens and the document is nested within the limit (`read?_eq_some_iff`).
-/

namespace TreeScript.Json

/-! ## Parts of a document -/

variable {j : Json} {js : List Json} {ms : List (String × Json)}

theorem depth_le_depthAll (h : j ∈ js) : j.depth ≤ depthAll js := by
  induction js with
  | nil => cases h
  | cons i js ih =>
    rw [depthAll]
    rcases List.mem_cons.mp h with rfl | h
    · omega
    · have := ih h
      omega

theorem depth_le_depthMembers {m : String × Json} (h : m ∈ ms) : m.2.depth ≤ depthMembers ms := by
  induction ms with
  | nil => cases h
  | cons k ms ih =>
    rw [depthMembers]
    rcases List.mem_cons.mp h with rfl | h
    · exact Nat.le_max_left ..
    · have := ih h
      omega

theorem depth_lt_array (h : j ∈ js) : j.depth < (array js).depth := by
  have := depth_le_depthAll h
  rw [depth]
  omega

theorem depth_lt_object {m : String × Json} (h : m ∈ ms) : m.2.depth < (object ms).depth := by
  have := depth_le_depthMembers h
  rw [depth]
  omega

theorem depth_array_le {js : List Json} {k : Nat} (hk : 0 < k) (h : ∀ j ∈ js, j.depth < k) : (array js).depth ≤ k := by
  induction js with
  | nil => exact hk
  | cons j js ih =>
    have hj := h j (by simp)
    have hjs := ih fun i hi => h i (by simp [hi])
    rw [depth] at hjs ⊢
    rw [depthAll]
    omega

theorem depth_object_le {ms : List (String × Json)} {k : Nat} (hk : 0 < k) (h : ∀ m ∈ ms, m.2.depth < k) :
    (object ms).depth ≤ k := by
  induction ms with
  | nil => exact hk
  | cons m ms ih =>
    have hm := h m (by simp)
    have hms := ih fun i hi => h i (by simp [hi])
    rw [depth] at hms ⊢
    rw [depthMembers]
    omega

/-- What holds of an array when it holds of its elements, of an object when it holds of its members' values, and of
everything else, holds of every document. -/
@[elab_as_elim]
theorem nesting_induction {motive : Json → Prop} (j : Json) (null : motive null) (bool : ∀ b, motive (bool b))
    (int : ∀ n, motive (int n)) (float : ∀ x, motive (float x)) (string : ∀ s, motive (string s))
    (array : ∀ js, (∀ i ∈ js, motive i) → motive (array js))
    (object : ∀ ms, (∀ m ∈ ms, motive m.2) → motive (object ms)) : motive j := by
  induction hd : j.depth using Nat.strongRecOn generalizing j with
  | ind d ih =>
    subst hd
    cases j with
    | null => exact null
    | bool b => exact bool b
    | int n => exact int n
    | float x => exact float x
    | string s => exact string s
    | array js =>
      apply array
      intro i hi
      exact ih i.depth (depth_lt_array hi) i rfl
    | object ms =>
      apply object
      intro m hm
      exact ih m.2.depth (depth_lt_object hm) m.2 rfl

/-! ## Tokens of a document -/

mutual

/-- The tokens of a document. -/
def tokens : Json → List Token
  | null => [.null]
  | bool b => [.bool b]
  | int n => [.int n]
  | float x => [.float x]
  | string s => [.string s]
  | array [] => [.openArray, .closeArray]
  | array (j :: rest) => .openArray :: (j.tokens ++ elementTokens rest)
  | object [] => [.openObject, .closeObject]
  | object ((name, j) :: rest) => .openObject :: .string name :: .colon :: (j.tokens ++ memberTokens rest)

/-- The tokens of an array after its first element. -/
def elementTokens : List Json → List Token
  | [] => [.closeArray]
  | j :: rest => .comma :: (j.tokens ++ elementTokens rest)

/-- The tokens of an object after its first member. -/
def memberTokens : List (String × Json) → List Token
  | [] => [.closeObject]
  | (name, j) :: rest => .comma :: .string name :: .colon :: (j.tokens ++ memberTokens rest)

end

/-- Tokens that can follow a number. -/
def Following (ts : List Token) : Prop := Separable ts ∧ ∀ t ∈ ts.head?, t.isNumber = false

theorem Following.cons {t : Token} {ts : List Token} (ht : t.isNumber = false) (h : Separable ts) :
    Following (t :: ts) :=
  ⟨h.cons fun _ _ => .inl ht, fun _ hu => by cases hu; exact ht⟩

theorem Separable.cons_of_following {t : Token} {ts : List Token} (h : Following ts) : Separable (t :: ts) :=
  h.1.cons fun u hu => .inr (h.2 u hu)

theorem separable_nil : Separable [] := List.IsChain.nil

/-- No two numbers of a document stand side by side. -/
theorem separable_tokens_append {ts : List Token} (j : Json) (h : Following ts) :
    Separable (j.tokens ++ ts) := by
  induction j using nesting_induction generalizing ts with
  | null | bool | int | float | string => exact .cons_of_following h
  | array js ih =>
    have helements {is : List Json} (his : ∀ i ∈ is, i ∈ js) : Following (elementTokens is ++ ts) := by
      induction is with
      | nil => exact .cons rfl h.1
      | cons i is ihs =>
        rw [elementTokens, List.cons_append, List.append_assoc]
        apply Following.cons rfl
        apply ih i (his i (by simp))
        exact ihs fun i hi => his i (by simp [hi])
    cases js with
    | nil => exact (Following.cons rfl (Following.cons rfl h.1).1).1
    | cons i is =>
      rw [tokens, List.cons_append, List.append_assoc]
      refine (Following.cons rfl (ih i (by simp) (helements ?_))).1
      intro k hk
      simp [hk]
  | object ms ih =>
    have hmembers {ns : List (String × Json)} (hns : ∀ m ∈ ns, m ∈ ms) : Following (memberTokens ns ++ ts) := by
      induction ns with
      | nil => exact .cons rfl h.1
      | cons m ns ihs =>
        have hm := ih m (hns m (by simp)) (ihs fun m hm => hns m (by simp [hm]))
        rw [memberTokens, List.cons_append, List.cons_append, List.cons_append, List.append_assoc]
        exact .cons rfl (Following.cons rfl (Following.cons rfl hm).1).1
    cases ms with
    | nil => exact (Following.cons rfl (Following.cons rfl h.1).1).1
    | cons m ns =>
      have hm : Separable (m.2.tokens ++ (memberTokens ns ++ ts)) := by
        apply ih m (by simp) (hmembers _)
        intro k hk
        simp [hk]
      rw [tokens, List.cons_append, List.cons_append, List.cons_append, List.append_assoc]
      exact (Following.cons rfl (Following.cons rfl (Following.cons rfl hm).1).1).1

theorem separable_tokens (j : Json) : Separable j.tokens := by
  have h : Following [] := ⟨separable_nil, by simp⟩
  simpa using separable_tokens_append j h

/-! ## Reading the tokens -/

namespace Reading

variable {limit : Nat} {s s' s'' : Reading} {ts us : List Token} {outer : List Open}

/-- Tokens lead a reader from one state to another. -/
def Reads (limit : Nat) (s : Reading) (ts : List Token) (s' : Reading) : Prop :=
  ts.foldlM (step? limit) s = some s'

theorem Reads.step {t : Token} (h : step? limit s t = some s') (hs : Reads limit s' ts s'') :
    Reads limit s (t :: ts) s'' := by
  rw [Reads, List.foldlM_cons, h]
  exact hs

theorem Reads.single {t : Token} (h : step? limit s t = some s') : Reads limit s [t] s' := .step h rfl

theorem Reads.append (h : Reads limit s ts s') (hs : Reads limit s' us s'') : Reads limit s (ts ++ us) s'' := by
  rw [Reads, List.foldlM_append, h]
  exact hs

/-- The first element of an array is read like any other. -/
theorem Reads.firstElement {j : Json} (h : Reads limit (.value (.array [] :: outer)) j.tokens s) :
    Reads limit (.firstElement outer) j.tokens s := by
  cases j with
  | array js => cases js <;> exact h
  | object ms => rcases ms with _ | ⟨⟨name, i⟩, ms⟩ <;> exact h
  | _ => exact h

/-- The rest of an array is read if each of its elements is. -/
theorem reads_elementTokens (v : Json) (done : List Json) {js : List Json} (hread : ∀ i ∈ js, ∀ inner : List Open,
    inner.length = outer.length + 1 → Reads limit (.value inner) i.tokens (.after i inner)) :
    Reads limit (.after v (.array done :: outer)) (elementTokens js)
      (.after (.array ((v :: done).reverse ++ js)) outer) := by
  induction js generalizing v done with
  | nil => exact .single (by simp [step?])
  | cons i js ih =>
    have hi := hread i (by simp) (.array (v :: done) :: outer) rfl
    have hjs := ih i (v :: done) fun k hk => hread k (by simp [hk])
    rw [List.reverse_cons, List.append_assoc] at hjs
    exact .step rfl (hi.append hjs)

/-- The rest of an object is read if each of its members is. -/
theorem reads_memberTokens (key : String) (v : Json) (done : List (String × Json)) {ms : List (String × Json)}
    (hread : ∀ m ∈ ms, ∀ inner : List Open, inner.length = outer.length + 1 →
      Reads limit (.value inner) m.2.tokens (.after m.2 inner)) :
    Reads limit (.after v (.object done key :: outer)) (memberTokens ms)
      (.after (.object (((key, v) :: done).reverse ++ ms)) outer) := by
  induction ms generalizing key v done with
  | nil => exact .single (by simp [step?])
  | cons m ms ih =>
    have hm := hread m (by simp) (.object ((key, v) :: done) m.1 :: outer) rfl
    have hms := ih m.1 m.2 ((key, v) :: done) fun k hk => hread k (by simp [hk])
    rw [List.reverse_cons, List.append_assoc] at hms
    exact .step rfl (.step rfl (.step rfl (hm.append hms)))

/-- A document is read from its tokens. -/
theorem reads_tokens (j : Json) (h : outer.length + j.depth ≤ limit) :
    Reads limit (.value outer) j.tokens (.after j outer) := by
  induction j using nesting_induction generalizing outer with
  | null | bool | int | float | string => rfl
  | array js ih =>
    have hopen : openValue? limit outer .openArray = some (.firstElement outer) := by
      rw [depth] at h
      rw [openValue?, if_pos (by omega)]
    have hread : ∀ i ∈ js, ∀ inner : List Open, inner.length = outer.length + 1 →
        Reads limit (.value inner) i.tokens (.after i inner) := by
      intro i hi inner hinner
      have := depth_lt_array hi
      apply ih i hi
      omega
    cases js with
    | nil => exact .step hopen (.single rfl)
    | cons i js =>
      have hi := hread i (by simp) (.array [] :: outer) rfl
      have hjs := reads_elementTokens i [] fun k hk => hread k (List.mem_cons_of_mem i hk)
      exact .step hopen (hi.firstElement.append hjs)
  | object ms ih =>
    have hopen : openValue? limit outer .openObject = some (.firstName outer) := by
      rw [depth] at h
      rw [openValue?, if_pos (by omega)]
    have hread : ∀ m ∈ ms, ∀ inner : List Open, inner.length = outer.length + 1 →
        Reads limit (.value inner) m.2.tokens (.after m.2 inner) := by
      intro m hm inner hinner
      have := depth_lt_object hm
      apply ih m hm
      omega
    cases ms with
    | nil => exact .step hopen (.single rfl)
    | cons m ms =>
      have hm := hread m (by simp) (.object [] m.1 :: outer) rfl
      have hms := reads_memberTokens m.1 m.2 [] fun k hk => hread k (List.mem_cons_of_mem m hk)
      exact .step hopen (.step rfl (.step rfl (hm.append hms)))

end Reading

/-! ## What a state has read -/

/-- Elements with a comma after each. -/
def elementRow (js : List Json) : List Token := js.flatMap fun j => j.tokens ++ [.comma]

/-- Members with a comma after each. -/
def memberRow (ms : List (String × Json)) : List Token :=
  ms.flatMap fun m => .string m.1 :: .colon :: (m.2.tokens ++ [.comma])

theorem elementTokens_concat (js : List Json) (v : Json) :
    elementTokens (js ++ [v]) = .comma :: (elementRow js ++ (v.tokens ++ [.closeArray])) := by
  induction js with
  | nil => rfl
  | cons j js ih => simp [elementTokens, elementRow, ih]

theorem memberTokens_concat (ms : List (String × Json)) (m : String × Json) : memberTokens (ms ++ [m]) =
    .comma :: (memberRow ms ++ .string m.1 :: .colon :: (m.2.tokens ++ [.closeObject])) := by
  induction ms with
  | nil => rfl
  | cons k ms ih => simp [memberTokens, memberRow, ih]

theorem tokens_array_concat (js : List Json) (v : Json) :
    (array (js ++ [v])).tokens = .openArray :: (elementRow js ++ (v.tokens ++ [.closeArray])) := by
  cases js with
  | nil => rfl
  | cons j js => simp [tokens, elementTokens_concat, elementRow]

theorem tokens_object_concat (ms : List (String × Json)) (m : String × Json) : (object (ms ++ [m])).tokens =
    .openObject :: (memberRow ms ++ .string m.1 :: .colon :: (m.2.tokens ++ [.closeObject])) := by
  cases ms with
  | nil => rfl
  | cons k ms => simp [tokens, memberTokens_concat, memberRow]

theorem elementRow_concat (js : List Json) (v : Json) :
    elementRow (js ++ [v]) = elementRow js ++ (v.tokens ++ [.comma]) := by
  simp [elementRow]

/-- The tokens that opened arrays and objects, and those of what they hold so far. -/
def Open.tokens : List Open → List Token
  | [] => []
  | .array done :: outer => Open.tokens outer ++ .openArray :: elementRow done.reverse
  | .object done name :: outer => Open.tokens outer ++ .openObject :: (memberRow done.reverse ++ [.string name, .colon])

/-- What arrays and objects hold so far is nested within the limit, and so are they. -/
def Open.Fits (limit : Nat) : List Open → Prop
  | [] => True
  | .array done :: outer => outer.length < limit ∧ (∀ j ∈ done, outer.length + j.depth < limit) ∧ Open.Fits limit outer
  | .object done _ :: outer =>
    outer.length < limit ∧ (∀ m ∈ done, outer.length + m.2.depth < limit) ∧ Open.Fits limit outer

namespace Reading

variable {limit : Nat} {s s' : Reading} {t : Token} {ts : List Token} {outer : List Open}

/-- The tokens that lead to a state. -/
def history : Reading → List Token
  | .value outer => Open.tokens outer
  | .firstElement outer => Open.tokens outer ++ [.openArray]
  | .firstName outer => Open.tokens outer ++ [.openObject]
  | .name done outer => Open.tokens outer ++ .openObject :: memberRow done.reverse
  | .colon done key outer => Open.tokens outer ++ .openObject :: (memberRow done.reverse ++ [.string key])
  | .after v outer => Open.tokens outer ++ v.tokens

theorem history_of_openValue? (h : openValue? limit outer t = some s) : s.history = Open.tokens outer ++ [t] := by
  unfold openValue? at h
  split at h
  case h_6 | h_7 =>
    split at h
    · cases h
      rfl
    · cases h
  all_goals cases h <;> rfl

/-- A step adds its token to the history. -/
theorem history_of_step? (h : step? limit s t = some s') : s'.history = s.history ++ [t] := by
  unfold step? at h
  split at h
  case h_1 => exact history_of_openValue? h
  case h_3 => simpa [Open.tokens, elementRow, history] using history_of_openValue? h
  all_goals cases h <;> simp [history, Open.tokens, tokens, memberRow, elementRow_concat, tokens_array_concat,
    tokens_object_concat]

theorem history_of_reads (h : Reads limit s ts s') : s'.history = s.history ++ ts := by
  induction ts generalizing s with
  | nil =>
    cases h
    simp
  | cons t ts ih =>
    rw [Reads, List.foldlM_cons] at h
    obtain ⟨s₁, hstep, hrest⟩ := Option.bind_eq_some_iff.mp h
    rw [ih hrest, history_of_step? hstep, List.append_assoc]
    rfl

/-- What a state has read is nested within the limit. -/
def Fits (limit : Nat) : Reading → Prop
  | .value outer => Open.Fits limit outer
  | .firstElement outer | .firstName outer => outer.length < limit ∧ Open.Fits limit outer
  | .name done outer | .colon done _ outer => Open.Fits limit (.object done "" :: outer)
  | .after v outer => outer.length + v.depth ≤ limit ∧ Open.Fits limit outer

theorem length_le_of_fits (h : Open.Fits limit outer) : outer.length ≤ limit := by
  cases outer with
  | nil => exact Nat.zero_le _
  | cons o outer => cases o <;> exact h.1

theorem fits_of_openValue? (hs : Open.Fits limit outer) (h : openValue? limit outer t = some s) : s.Fits limit := by
  have hlength := length_le_of_fits hs
  unfold openValue? at h
  split at h
  case h_6 | h_7 =>
    split at h
    · cases h
      exact ⟨‹_›, hs⟩
    · cases h
  all_goals cases h <;> exact ⟨hlength, hs⟩

/-- A step stays within the limit. -/
theorem fits_of_step? (hs : s.Fits limit) (h : step? limit s t = some s') : s'.Fits limit := by
  unfold step? at h
  split at h
  case h_1 => exact fits_of_openValue? hs h
  case h_3 outer _ =>
    have houter : Open.Fits limit (.array [] :: outer) := ⟨hs.1, by simp, hs.2⟩
    exact fits_of_openValue? houter h
  case h_2 | h_4 =>
    cases h
    exact ⟨hs.1, hs.2⟩
  case h_5 =>
    cases h
    exact ⟨hs.1, by simp, hs.2⟩
  case h_6 | h_7 =>
    cases h
    exact hs
  case h_8 v done outer =>
    cases h
    obtain ⟨hv, hlength, hdone, houter⟩ := hs
    simp only [List.length_cons] at hv
    exact ⟨hlength, List.forall_mem_cons.mpr ⟨by omega, hdone⟩, houter⟩
  case h_9 v done outer =>
    cases h
    obtain ⟨hv, hlength, hdone, houter⟩ := hs
    simp only [List.length_cons] at hv
    have hdepth : (array (v :: done).reverse).depth ≤ limit - outer.length := by
      apply depth_array_le (by omega)
      intro j hj
      rcases List.mem_cons.mp (List.mem_reverse.mp hj) with rfl | hj
      · omega
      · have := hdone j hj
        omega
    exact ⟨by omega, houter⟩
  case h_10 v done key outer =>
    cases h
    obtain ⟨hv, hlength, hdone, houter⟩ := hs
    simp only [List.length_cons] at hv
    have hmember : outer.length + v.depth < limit := by omega
    exact ⟨hlength, List.forall_mem_cons.mpr ⟨hmember, hdone⟩, houter⟩
  case h_11 v done key outer =>
    cases h
    obtain ⟨hv, hlength, hdone, houter⟩ := hs
    simp only [List.length_cons] at hv
    have hdepth : (object ((key, v) :: done).reverse).depth ≤ limit - outer.length := by
      apply depth_object_le (by omega)
      intro m hm
      rcases List.mem_cons.mp (List.mem_reverse.mp hm) with rfl | hm
      · change v.depth < _
        omega
      · have := hdone m hm
        omega
    exact ⟨by omega, houter⟩
  case h_12 => cases h

theorem fits_of_reads (hs : s.Fits limit) (h : Reads limit s ts s') : s'.Fits limit := by
  induction ts generalizing s with
  | nil =>
    cases h
    exact hs
  | cons t ts ih =>
    rw [Reads, List.foldlM_cons] at h
    obtain ⟨s₁, hstep, hrest⟩ := Option.bind_eq_some_iff.mp h
    exact ih (fits_of_step? hs hstep) hrest

end Reading

/-- A text is read as a document exactly if it is a layout of its tokens and the document is nested within the
limit. -/
theorem read?_eq_some_iff {j : Json} {text : String} :
    read? text = some j ↔ Layout j.tokens text.toList ∧ j.depth ≤ nestingLimit := by
  constructor
  · intro h
    rw [read?, readWithin?] at h
    obtain ⟨ts, hscan, hread⟩ := Option.bind_eq_some_iff.mp h
    unfold ofTokens? at hread
    split at hread
    · next v hreads =>
      cases hread
      have hhistory := Reading.history_of_reads hreads
      have hstart : Reading.Fits nestingLimit (.value []) := trivial
      have hfits := Reading.fits_of_reads hstart hreads
      have hts : ts = j.tokens := by simpa [Reading.history, Open.tokens] using hhistory.symm
      subst hts
      exact ⟨layout_of_scan? hscan, by simpa using hfits.1⟩
    · cases hread
  · rintro ⟨hlayout, hdepth⟩
    have hscan := hlayout.scan?_eq (separable_tokens j)
    have hreads : Reading.Reads nestingLimit (.value []) j.tokens (.after j []) :=
      Reading.reads_tokens j (by simpa using hdepth)
    rw [read?, readWithin?, hscan, Option.bind_some, ofTokens?, hreads]

end TreeScript.Json
