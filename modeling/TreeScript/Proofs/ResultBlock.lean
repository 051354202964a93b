import TreeScript.Proofs.Heap.Text
import TreeScript.Proofs.Hostless
import TreeScript.Proofs.Json.Quoting
import TreeScript.Proofs.Overload.Resolution
import TreeScript.Proofs.Path.Text
import TreeScript.Proofs.Regime.Program

/-!
# Result blocks

What a command wrote tells how it ended, whatever its program printed. `Ending.ofOutput?` reads it from
the last line on that begins with `RESULT:`.

A block is read line by line, so no part of it may hold a line break. The texts are quoted; the names of
types and the codes of errors are not, but there are no objects of the host, and all errors are worded by
the evaluator (`Engine.run_ensures`).
-/

namespace TreeScript

/-! ## Runs with core functions -/

theorem Native.Core.steady_of_mem {n : Native} (h : n ∈ functions) : n.routine.Steady := by
  intro thread receiver arguments w w' hcrashed
  have hgives := gives_of_mem Value.laws_hostless h thread receiver arguments w
  rw [hcrashed] at hgives
  cases hgives

/-- A run with core functions does not break off, and its errors are worded by the evaluator. -/
theorem Engine.run_ensures {engine : Engine} (hl : engine.Hostless)
    (hresolver : engine.resolver = Overload.select) (program : Node) :
    Step.Ensures (· = State.initial) (engine.run program) (engine.run program) (fun _ _ => True)
      (fun e _ => e.cause.isOwn = true) (fun stop _ => stop = .blocked) := by
  have herrors : (Regime.failing program (·.cause.isOwn = true) (fun _ => True) False).ErrorLaws engine :=
    { of := id
      located := fun he _ => he
      within := fun he _ _ _ => he
      node := fun _ => trivial
      resolver := fun {callee candidates values e} he => by
        rw [hresolver] at he
        rcases Overload.select_cases callee candidates values with ⟨-, hs⟩ | ⟨i, -, hs⟩ | ⟨i, j, rest, -, hs⟩ <;>
          rw [hs] at he <;> cases he <;> rfl
      steady := .inr ⟨fun name n hn => Native.Core.steady_of_mem (hl name n hn), fun hi =>
        Overload.lt_length_of_select (hresolver ▸ hi)⟩
      accessor := fun _ _ _ _ _ _ _ _ _ => rfl }
  have hlaws := Regime.laws_failing (fun _ _ => trivial) herrors
  have hkeeps : Regime.Keeps _ () (engine.run program) (engine.run program) :=
    (hlaws.visits Eval.patience).evaluate trivial program.self_mem_descendants
  refine hkeeps.mono (fun _ h => h ▸ Regime.failing_initial) (fun _ _ _ => trivial) (fun _ _ h => h.1) ?_
  intro stop s h
  cases stop with
  | crashed => exact h.1.elim
  | blocked => rfl

/-! ## Endings -/

namespace CommandLine

/-- What a result block tells. -/
inductive Ending where
  | value (typeName text : String)
  | error (code message : String) (position : Option Position) (invocable : Option Invocable)

def Ending.ofError (e : Error) : Ending := .error e.code e.message e.position e.invocable

/-- How a command ends, and the block for it. -/
inductive Ends (read : String → Except String String) (c : Command) : List String → Ending → Prop
  | unloaded {e : Error} (h : load read c = .error e) : Ends read c (errorBlock e) (.ofError e)
  | failed {engine : Engine} {program : Node} {e : Error} {s : State} (h : load read c = .ok (engine, program))
      (hrun : engine.run program .initial = .error e s) : Ends read c (errorBlock e) (.ofError e)
  | returned {engine : Engine} {program : Node} {v : Value} {s : State} {text : String} {block : List String}
      (h : load read c = .ok (engine, program)) (hrun : engine.run program .initial = .ok v s)
      (htext : s.heap.text? v = some text) (hblock : valueBlock s.heap v = some block) :
      Ends read c block (.value v.typeName text)

/-- The ends of a program that the command gives no report of: it takes more steps than there is patience
for, it waits for ever, or its value contains an object that contains itself, so that its text does not end. -/
inductive Unreported : Outcome State Error Value → Prop
  | exhausted (s : State) : Unreported (.exhausted s)
  | blocked (s : State) : Unreported (.blocked s)
  | endless {v : Value} {s : State} (h : s.heap.Cyclic v) : Unreported (.ok v s)

theorem Unreported.report_eq {o : Outcome State Error Value} (h : Unreported o) : report o = none := by
  cases h with
  | exhausted | blocked => rfl
  | endless h => rw [report, valueBlock, Heap.text?_eq_none_iff.2 h, Option.map_none, Option.map_none]

/-- What is written for a report: its lines, each with a line break. -/
def Report.output (r : Report) : String := String.join (r.lines.map (· ++ "\n"))

/-! ## Reading an output -/

/-- The lines of an output. -/
def outputLines (output : String) : List String := (textLines output).dropLast

/-- What a line says after a mark. -/
def after? (mark line : String) : Option String := (mark.toList.isPrefixOf? line.toList).map String.ofList

/-- The lines from the last one on that begins with `RESULT:`. -/
def lastBlock : List String → List String
  | [] => []
  | line :: rest =>
    match lastBlock rest with
    | [] => if (after? "RESULT:" line).isSome then line :: rest else []
    | block => block

/-- What the first line with a mark says. -/
def field? (fields : List String) (mark : String) : Option String := fields.findSome? (after? mark)

/-- The text that is quoted after a mark. -/
def text? (fields : List String) (mark : String) : Option String := do
  (← Json.read? (← field? fields mark)).text?

def position? (fields : List String) : Option Position := do
  match pieces ':' (← field? fields "ERROR_AT:").toList with
  | [line, column] => return ⟨Nat.ofDigitChars 10 line 0, Nat.ofDigitChars 10 column 0⟩
  | _ => none

def Ending.ofBlock? : List String → Option Ending
  | "RESULT:OK" :: fields => do
    return .value (← field? fields "TYPE:") (← text? fields "VALUE_JSON:")
  | "RESULT:ERROR" :: fields => do
    return .error (← field? fields "ERROR_CODE:") (← text? fields "ERROR_MSG_JSON:") (position? fields)
      ((text? fields "INVOCABLE_JSON:").map fun name => ⟨name, (text? fields "SIGNATURE_JSON:").getD ""⟩)
  | _ => none

/-- The ending that an output tells. -/
def Ending.ofOutput? (output : String) : Option Ending := ofBlock? (lastBlock (outputLines output))

/-! ## Lines -/

theorem outputLines_output {r : Report} (h : ∀ line ∈ r.lines, '\n' ∉ line.toList) :
    outputLines r.output = r.lines := by
  have hpieces : pieces '\n' (r.lines.flatMap fun line => line.toList ++ ['\n']) =
      r.lines.map String.toList ++ [[]] := by
    generalize r.lines = lines at h
    induction lines with
    | nil => rfl
    | cons line rest ih =>
      obtain ⟨hline, hrest⟩ := List.forall_mem_cons.1 h
      rw [List.flatMap_cons, List.append_assoc, List.singleton_append, pieces_append,
        pieces_of_not_mem hline, ih hrest]
      rfl
  have hchars : r.output.toList = r.lines.flatMap fun line => line.toList ++ ['\n'] := by
    simp [Report.output, List.flatMap_def, Function.comp_def]
  simp [outputLines, textLines, hchars, hpieces, Function.comp_def]

theorem newline_not_mem_printedLines {w : World} {line : String} (h : line ∈ printedLines w) :
    '\n' ∉ line.toList := by
  obtain ⟨text, -, hline⟩ := List.mem_flatMap.1 h
  obtain ⟨piece, hpiece, rfl⟩ := List.mem_map.1 hline
  rw [String.toList_ofList]
  exact not_mem_of_mem_pieces hpiece

theorem after?_append (mark text : String) : after? mark (mark ++ text) = some text := by
  have hcut : mark.toList.isPrefixOf? (mark ++ text).toList = some text.toList := by simp
  rw [after?, hcut, Option.map_some, String.ofList_toList]

/-- The block at the end is found, whatever stands before it. -/
theorem lastBlock_append (before : List String) {head : String} {fields : List String}
    (hhead : (after? "RESULT:" head).isSome) (hfields : ∀ line ∈ fields, after? "RESULT:" line = none) :
    lastBlock (before ++ head :: fields) = head :: fields := by
  have hnone : lastBlock fields = [] := by
    induction fields with
    | nil => rfl
    | cons line rest ih =>
      obtain ⟨hline, hrest⟩ := List.forall_mem_cons.1 hfields
      simp [lastBlock, ih hrest, hline]
  induction before with
  | nil => simp [lastBlock, hnone, hhead]
  | cons line rest ih => simp [lastBlock, ih]

/-! ## Blocks -/

/-- The marks of the lines of a block after the first one. -/
def marks : List String :=
  ["TYPE:", "VALUE_JSON:", "ERROR_CODE:", "ERROR_MSG_JSON:", "ERROR_AT:", "INVOCABLE_JSON:",
    "SIGNATURE_JSON:"]

theorem marks_apart : ∀ mark ∈ marks, '\n' ∉ mark.toList ∧
    ∀ mark' ∈ "RESULT:" :: marks, mark ≠ mark' →
      ¬mark.toList <+: mark'.toList ∧ ¬mark'.toList <+: mark.toList := by
  decide +kernel

theorem after?_of_ne {mark mark' : String} (h : mark ∈ marks) (h' : mark' ∈ "RESULT:" :: marks)
    (hne : mark ≠ mark') (text : String) : after? mark' (mark ++ text) = none := by
  unfold after?
  rw [Option.map_eq_none_iff, Option.eq_none_iff_forall_ne_some]
  intro rest hrest
  have hline : mark'.toList <+: (mark ++ text).toList := ⟨rest, List.isPrefixOf?_eq_some_iff_append_eq.1 hrest⟩
  have hmark : mark.toList <+: (mark ++ text).toList := by simp
  -- If the line began with both marks, one would begin with the other.
  obtain ⟨hapart, hapart'⟩ := (marks_apart mark h).2 mark' h' hne
  exact (List.prefix_or_prefix_of_prefix hline hmark).elim hapart' hapart

/-- The lines of texts with marks. -/
def marked (fields : List (String × String)) : List String := fields.map fun f => f.1 ++ f.2

theorem field?_marked {fields : List (String × String)} (hf : ∀ f ∈ fields, f.1 ∈ marks) {mark : String}
    (h : mark ∈ marks) : field? (marked fields) mark = fields.lookup mark := by
  induction fields with
  | nil => rfl
  | cons f rest ih =>
    obtain ⟨hfirst, hrest⟩ := List.forall_mem_cons.1 hf
    have hnext : (marked rest).findSome? (after? mark) = rest.lookup mark := ih hrest
    show ((f.1 ++ f.2) :: marked rest).findSome? (after? mark) = _
    rw [List.findSome?_cons, hnext, List.lookup_cons]
    by_cases heq : mark = f.1
    · simp [heq, after?_append]
    · rw [after?_of_ne hfirst (List.mem_cons_of_mem _ h) (Ne.symm heq), beq_eq_false_iff_ne.2 heq]

theorem read?_quote (text : String) : (Json.read? (Json.quote text)).bind Json.text? = some text := by
  rw [(Json.quotes_quote text).read?_eq]
  rfl

/-- A block can be found among other lines, and tells an ending. -/
structure Tells (head : String) (fields : List String) (ending : Ending) : Prop where
  begins : (after? "RESULT:" head).isSome ∧ '\n' ∉ head.toList
  continues : ∀ line ∈ fields, after? "RESULT:" line = none ∧ '\n' ∉ line.toList
  tells : Ending.ofBlock? (head :: fields) = some ending

theorem Tells.of_marked {head : String} {fields : List (String × String)} {ending : Ending}
    (hhead : (after? "RESULT:" head).isSome ∧ '\n' ∉ head.toList)
    (hfields : ∀ f ∈ fields, f.1 ∈ marks ∧ '\n' ∉ f.2.toList)
    (htells : (∀ mark ∈ marks, field? (marked fields) mark = fields.lookup mark) →
      Ending.ofBlock? (head :: marked fields) = some ending) : Tells head (marked fields) ending := by
  refine ⟨hhead, fun line hline => ?_, htells fun _ => field?_marked fun f hf => (hfields f hf).1⟩
  obtain ⟨f, hf, rfl⟩ := List.mem_map.1 hline
  obtain ⟨hmark, htext⟩ := hfields f hf
  have hne : f.1 ≠ "RESULT:" := fun heq => absurd (heq ▸ hmark) (by decide)
  exact ⟨after?_of_ne hmark List.mem_cons_self hne _, by simp [(marks_apart _ hmark).1, htext]⟩

theorem tells_value {v : Value} (hv : '\n' ∉ v.typeName.toList) (text : String) :
    Tells "RESULT:OK" ["TYPE:" ++ v.typeName, "VALUE_JSON:" ++ Json.quote text] (.value v.typeName text) := by
  have hquote := (Json.quotes_quote text).newline_not_mem
  show Tells _ (marked [("TYPE:", v.typeName), ("VALUE_JSON:", Json.quote text)]) _
  refine .of_marked (by decide) (by simp [marks, hv, hquote]) fun hfield => ?_
  rw [Ending.ofBlock?, text?, hfield _ (by simp [marks]), hfield _ (by simp [marks])]
  simp [List.lookup_cons, read?_quote]

theorem not_mem_toDigits {c : Char} (hc : c.isDigit = false) (n : Nat) : c ∉ Nat.toDigits 10 n := by
  intro h
  rw [Nat.isDigit_of_mem_toDigits (by decide) (by decide) h] at hc
  cases hc

/-- A line and a column are told apart. -/
theorem pieces_place (line column : Nat) : pieces ':' (Nat.toDigits 10 line ++ ':' :: Nat.toDigits 10 column) =
    [Nat.toDigits 10 line, Nat.toDigits 10 column] := by
  rw [pieces_append, pieces_of_not_mem (not_mem_toDigits rfl _), pieces_of_not_mem (not_mem_toDigits rfl _)]
  rfl

/-- The fields of the block of an error. -/
def errorFields (e : Error) : List (String × String) :=
  [("ERROR_CODE:", e.code), ("ERROR_MSG_JSON:", Json.quote e.message)] ++
    (match e.position with
      | some p => [("ERROR_AT:", p.line.repr ++ (":" ++ p.column.repr))]
      | none => []) ++
    match e.invocable with
    | some i =>
      ("INVOCABLE_JSON:", Json.quote i.name) ::
        (if i.signature.isEmpty then [] else [("SIGNATURE_JSON:", Json.quote i.signature)])
    | none => []

theorem tells_errorBlock {e : Error} (he : '\n' ∉ e.code.toList) :
    Tells "RESULT:ERROR" (errorBlock e).tail (.ofError e) := by
  have hquote (text : String) := (Json.quotes_quote text).newline_not_mem
  have hdigits (n : Nat) : '\n' ∉ Nat.toDigits 10 n := not_mem_toDigits rfl n
  have hblock : (errorBlock e).tail = marked (errorFields e) := by
    have htext (text : String) : toString text = text := rfl
    unfold errorBlock errorFields
    cases e.position <;> cases e.invocable <;> simp [marked, htext, String.append_assoc, apply_ite]
  rw [hblock]
  refine .of_marked (by decide) ?_ fun hfield => ?_
  · unfold errorFields
    cases e.position <;> cases e.invocable <;> simp [marks, hquote, he, hdigits]
  · have hcode := hfield "ERROR_CODE:" (by simp [marks])
    have hmessage := hfield "ERROR_MSG_JSON:" (by simp [marks])
    have hplace := hfield "ERROR_AT:" (by simp [marks])
    have hname := hfield "INVOCABLE_JSON:" (by simp [marks])
    have hsignature := hfield "SIGNATURE_JSON:" (by simp [marks])
    rw [Ending.ofBlock?, Ending.ofError, position?, text?, text?, text?, hcode, hmessage, hplace, hname,
      hsignature]
    unfold errorFields
    rcases e.position with _ | p <;> rcases e.invocable with _ | ⟨name, signature⟩ <;>
      try by_cases hs : signature = ""
    all_goals simp [List.lookup_cons, read?_quote, pieces_place, Nat.ofDigitChars_ten_toDigits, *]

/-! ## Commands -/

theorem newline_not_mem_code {e : Error} (h : e.cause.isOwn = true) : '\n' ∉ e.code.toList := by
  unfold Error.code
  cases hc : e.cause with
  | reported =>
    rw [hc] at h
    cases h
  | hostCall _ failure | hostFailure failure =>
    cases failure <;> dsimp only [Cause.code, HostError.code] <;> decide
  | _ =>
    dsimp only [Cause.code]
    decide

theorem newline_not_mem_typeName {v : Value} (h : v.isHostless = true) : '\n' ∉ v.typeName.toList := by
  cases v with
  | host => cases h
  | _ =>
    dsimp only [Value.typeName]
    decide

/-- What is loaded: there is no host, and if something is wrong with a file, the error is worded by the
evaluator. -/
theorem load_cases (read : String → Except String String) (c : Command) :
    (∃ e, load read c = .error e ∧ e.cause.isOwn = true) ∨ ∃ engine program,
      load read c = .ok (engine, program) ∧ engine.Hostless ∧ engine.resolver = Overload.select := by
  have hcontents {file : String} {e : Error} (h : contents read file = .error e) : e.cause.isOwn = true := by
    unfold contents at h
    cases hr : read file <;> rw [hr] at h <;> cases h
    rfl
  have hsymbols {text : String} {e : Error} (h : symbolsOf text = .error e) : e.cause.isOwn = true := by
    unfold symbolsOf at h
    split at h <;> cases h
    rfl
  have hparse {text : String} {e : Error} (h : Program.parse text = .error e) : e.cause.isOwn = true := by
    unfold Program.parse Program.check at h
    repeat' split at h
    all_goals cases h
    all_goals rfl
  have hsources {e : Error} (h : sources read c = .error e) : e.cause.isOwn = true := by
    unfold sources at h
    simp only [bind, Except.bind, pure, Except.pure] at h
    repeat' split at h
    all_goals cases h
    all_goals first | exact hcontents ‹_› | exact hsymbols ‹_› | exact hparse ‹_›
  rw [load_eq]
  cases hp : sources read c with
  | error e => exact .inl ⟨e, rfl, hsources hp⟩
  | ok p =>
    obtain ⟨engine, hengine, hresolver⟩ : ∃ engine, Engine.create (options c p.1) = .ok engine ∧
      engine.resolver = Overload.select := ⟨_, rfl, rfl⟩
    refine .inr ⟨engine, p.2, ?_, Engine.hostless_of_create rfl hengine, hresolver⟩
    simp only [bind, Except.bind, hengine, pure, Except.pure]

/-- A block at the end of an output is found and read. -/
theorem Tells.of_output {head : String} {fields : List String} {ending : Ending} (h : Tells head fields ending)
    {before : List String} (hbefore : ∀ line ∈ before, '\n' ∉ line.toList) (exit : Nat) :
    lastBlock (outputLines (Report.mk exit (before ++ head :: fields)).output) = head :: fields ∧
      Ending.ofOutput? (Report.mk exit (before ++ head :: fields)).output = some ending := by
  have hlines : outputLines (Report.mk exit (before ++ head :: fields)).output = before ++ head :: fields := by
    refine outputLines_output fun line hline => ?_
    rcases List.mem_append.1 hline with hline | hline
    · exact hbefore line hline
    · rcases List.mem_cons.1 hline with rfl | hline
      · exact h.begins.2
      · exact (h.continues line hline).2
  have hblock := lastBlock_append before h.begins.1 fun line hline => (h.continues line hline).1
  rw [Ending.ofOutput?, hlines, hblock]
  exact ⟨rfl, h.tells⟩

/-- A command prints lines and then a block, unless there is no report of its program. -/
theorem execute_cases (read : String → Except String String) (c : Command) :
    (∃ engine program, load read c = .ok (engine, program) ∧ Unreported (engine.run program .initial)) ∨
    ∃ exit before head fields ending, execute read c = some ⟨exit, before ++ head :: fields⟩ ∧
      (∀ line ∈ before, '\n' ∉ line.toList) ∧ Tells head fields ending ∧ Ends read c (head :: fields) ending ∧
      (exit = 0 ∧ head = "RESULT:OK" ∨ exit = 1 ∧ head = "RESULT:ERROR") := by
  unfold execute
  rcases load_cases read c with ⟨e, hload, he⟩ | ⟨engine, program, hload, hl, hresolver⟩
  · rw [hload]
    exact .inr ⟨1, [], _, _, _, rfl, fun _ h => absurd h List.not_mem_nil,
      tells_errorBlock (newline_not_mem_code he), .unloaded hload, .inr ⟨rfl, rfl⟩⟩
  · obtain ⟨-, hends⟩ := (Engine.run_ensures hl hresolver program).ends .initial rfl
    rw [hload]
    dsimp only
    cases hrun : engine.run program .initial with
    | ok v s =>
      have hv := newline_not_mem_typeName (Engine.hostless_of_run hl .start hrun)
      cases htext : s.heap.text? v with
      | none => exact .inl ⟨engine, program, rfl, hrun ▸ .endless (Heap.text?_eq_none_iff.1 htext)⟩
      | some text =>
        have hblock : valueBlock s.heap v = some _ := congrArg (Option.map _) htext
        refine .inr ⟨0, printedLines s.world, _, _, _, ?_, fun _ => newline_not_mem_printedLines,
          tells_value hv text, .returned hload hrun htext hblock, .inl ⟨rfl, rfl⟩⟩
        rw [report, hblock]
        rfl
    | error e s =>
      rw [hrun] at hends
      exact .inr ⟨1, _, _, _, _, rfl, fun _ => newline_not_mem_printedLines,
        tells_errorBlock (newline_not_mem_code hends), .failed hload hrun, .inr ⟨rfl, rfl⟩⟩
    | crashed s =>
      -- Core functions do not break off, and what is picked among overloads is there.
      rw [hrun] at hends
      cases hends
    | blocked s => exact .inl ⟨engine, program, rfl, hrun ▸ .blocked s⟩
    | exhausted s => exact .inl ⟨engine, program, rfl, hrun ▸ .exhausted s⟩

/-- A program that prints lines like those of a block, and calls what is not there. -/
def misleading : Json :=
  let call (id : Int) (name : String) (arguments : List Json) : Json :=
    .object [("kind", .string "call"), ("id", .int id), ("name", .string name), ("arguments", .array arguments)]
  let text := .object [("kind", .string "literal"), ("id", .int 1), ("value", .string "RESULT:OK\nTYPE:int")]
  .object [("kind", .string "program"), ("id", .int 2), ("statements", .array
    [call 3 "print" [.object [("value", text)]], call 4 "\nRESULT:OK" []])]

end CommandLine

end TreeScript
