import Mathlib.Data.List.Induction
import TreeScript.Eval.Path
import TreeScript.Proofs.Path.Text
import TreeScript.Proofs.Scope.Paired

/-!
# Following paths through objects of a script

Where no object of the host is met, it is for the scopes and the heap alone to say where names lead
to: the first is that of a variable, and each further one that of a field (`State.resolve?`). Either
all names can be resolved, or there is a first one that cannot (`State.resolved_or_missing`).

This is all that reading and writing along a path depend on. The marks of the path say only what is to
happen where a name is missing (`Path.mayEndAt` for a read).
-/

namespace TreeScript

/-- Whether a value is an object of the host. -/
def Value.isHost : Value → Bool
  | host .. => true
  | _ => false

/-! ## Fields -/

namespace Heap

variable {h : Heap} {v w : Value} {name : String} {names front back : List String}

/-- The value of a field; only objects of a script have any here. -/
def member? (h : Heap) : Value → String → Option Value
  | .object ref, name => h.field? ref name
  | _, _ => none

/-- The value that fields lead to, one after the other. -/
def follow? (h : Heap) (v : Value) (names : List String) : Option Value := names.foldlM h.member? v

@[simp] theorem follow?_nil (h : Heap) (v : Value) : h.follow? v [] = some v := rfl

theorem follow?_cons (h : Heap) (v : Value) (name : String) (names : List String) :
    h.follow? v (name :: names) = (h.member? v name).bind (h.follow? · names) := List.foldlM_cons ..

theorem follow?_append (h : Heap) (v : Value) (front back : List String) :
    h.follow? v (front ++ back) = (h.follow? v front).bind (h.follow? · back) :=
  List.foldlM_append ..

/-- No object of the host is asked for a field. -/
def NativeAlong (h : Heap) : Value → List String → Prop
  | _, [] => True
  | v, name :: rest => v.isHost = false ∧ ∀ w, h.member? v name = some w → h.NativeAlong w rest

theorem nativeAlong_append :
    h.NativeAlong v (front ++ back) ↔
      h.NativeAlong v front ∧ ∀ w, h.follow? v front = some w → h.NativeAlong w back := by
  induction front generalizing v with
  | nil => simp [NativeAlong]
  | cons name front ih =>
    simp only [List.cons_append, NativeAlong, follow?_cons, Option.bind_eq_some_iff, ih]
    constructor
    · rintro ⟨hv, hnext⟩
      exact ⟨⟨hv, fun w hw => (hnext w hw).1⟩, fun u ⟨w, hw, hu⟩ => (hnext w hw).2 u hu⟩
    · rintro ⟨⟨hv, hnext⟩, hback⟩
      exact ⟨hv, fun w hw => ⟨hnext w hw, fun u hu => hback u ⟨w, hw, hu⟩⟩⟩

/-- Objects of the host lead nowhere here. -/
theorem nativeAlong_of_follow? (hw : h.follow? v names = some w) : h.NativeAlong v names := by
  induction names generalizing v with
  | nil => trivial
  | cons name names ih =>
    rw [follow?_cons] at hw
    obtain ⟨u, hu, hw⟩ := Option.bind_eq_some_iff.1 hw
    refine ⟨?_, fun u' hu' => ?_⟩
    · cases v with
      | object ref => rfl
      | _ => cases hu
    · rw [hu] at hu'
      cases hu'
      exact ih hw

end Heap

/-! ## Names -/

namespace State

variable {s : State} {scope : ScopeId} {names front back : List String} {v : Value} {index : Nat}

/-- What names lead to from a scope: the first to a variable, and the others to fields. -/
def resolve? (s : State) (scope : ScopeId) : List String → Option Value
  | [] => none
  | first :: rest =>
    (s.scopes.nearestVariable? scope first false).bind fun x => s.heap.follow? x.2.value rest

/-- No object of the host is met before the last of the names. -/
def NativeAlong (s : State) (scope : ScopeId) : List String → Prop
  | [] => True
  | first :: rest => ∀ holder x, s.scopes.nearestVariable? scope first false = some (holder, x) →
    s.heap.NativeAlong x.value rest

theorem resolve?_append (s : State) (scope : ScopeId) (h : front ≠ []) (back : List String) :
    s.resolve? scope (front ++ back) = (s.resolve? scope front).bind (s.heap.follow? · back) := by
  obtain ⟨first, rest, rfl⟩ := List.exists_cons_of_ne_nil h
  simp only [resolve?, List.cons_append, Heap.follow?_append, Option.bind_assoc]

theorem ne_nil_of_resolve? (h : s.resolve? scope names = some v) : names ≠ [] := by
  rintro rfl
  cases h

/-- Only a scope that is registered leads anywhere. -/
theorem registered_of_resolve? (h : s.resolve? scope names = some v) :
    ∃ c, s.scopes.find? scope = some c := by
  cases hc : s.scopes.find? scope with
  | some c => exact ⟨c, rfl⟩
  | none =>
    cases names with
    | nil => cases h
    | cons first rest =>
      have hnone : s.scopes.nearestVariable? scope first false = none := by
        rw [ScopeTree.nearestVariable?, ScopeTree.searched, if_neg Bool.false_ne_true,
          ScopeTree.ancestry_of_none hc]
        rfl
      rw [resolve?, hnone] at h
      cases h

/-- What is asked for the last of the names is no object of the host. -/
theorem NativeAlong.holder {name : String} (hn : s.NativeAlong scope (front ++ [name]))
    (hv : s.resolve? scope front = some v) : v.isHost = false := by
  obtain ⟨first, rest, rfl⟩ := List.exists_cons_of_ne_nil (ne_nil_of_resolve? hv)
  obtain ⟨⟨holder, x⟩, hx, hrest⟩ := Option.bind_eq_some_iff.1 hv
  exact ((Heap.nativeAlong_append.1 (hn holder x hx)).2 v hrest).1

/-- The name at a position is the first that cannot be resolved. -/
structure Missing (s : State) (scope : ScopeId) (names : List String) (index : Nat) : Prop where
  lt : index < names.length
  resolved : ∀ k, 0 < k → k ≤ index → (s.resolve? scope (names.take k)).isSome
  unresolved : s.resolve? scope (names.take (index + 1)) = none

namespace Missing

theorem unique {index' : Nat} (h : s.Missing scope names index)
    (h' : s.Missing scope names index') : index = index' := by
  rcases Nat.lt_trichotomy index index' with hlt | heq | hlt
  · have := h'.resolved (index + 1) (Nat.succ_pos _) hlt
    rw [h.unresolved] at this
    cases this
  · exact heq
  · have := h.resolved (index' + 1) (Nat.succ_pos _) hlt
    rw [h'.unresolved] at this
    cases this

theorem append (h : s.Missing scope front index) (back : List String) :
    s.Missing scope (front ++ back) index where
  lt := by
    rw [List.length_append]
    exact Nat.lt_add_right _ h.lt
  resolved k hk hle := by
    rw [List.take_append_of_le_length (Nat.le_trans hle (Nat.le_of_lt h.lt))]
    exact h.resolved k hk hle
  unresolved := by
    rw [List.take_append_of_le_length h.lt]
    exact h.unresolved

end Missing

/-- All names but the last can be resolved. -/
theorem missing_last {name : String} (hv : s.resolve? scope front = some v)
    (h : s.resolve? scope (front ++ [name]) = none) :
    s.Missing scope (front ++ [name]) front.length where
  lt := by simp
  resolved k hk hle := by
    have hne : front.take k ≠ [] := by simp [ne_nil_of_resolve? hv, Nat.ne_of_gt hk]
    rw [List.take_append_of_le_length hle]
    rw [← List.take_append_drop k front, resolve?_append s scope hne] at hv
    obtain ⟨w, hw, -⟩ := Option.bind_eq_some_iff.1 hv
    exact Option.isSome_iff_exists.2 ⟨w, hw⟩
  unresolved := by
    rw [List.take_of_length_le (by simp)]
    exact h

/-- All names can be resolved, or there is a first one that cannot. -/
theorem resolved_or_missing (s : State) (scope : ScopeId) (h : names ≠ []) :
    (∃ v, s.resolve? scope names = some v) ∨ ∃ index, s.Missing scope names index := by
  induction names using List.reverseRecOn with
  | nil => exact absurd rfl h
  | append_singleton front name ih =>
    cases hv : s.resolve? scope (front ++ [name]) with
    | some v => exact .inl ⟨v, rfl⟩
    | none =>
      refine .inr ?_
      by_cases hfront : front = []
      · subst hfront
        exact ⟨0, Nat.one_pos, fun k hk hle => absurd hle (Nat.not_le_of_lt hk), hv⟩
      · rcases ih hfront with ⟨u, hu⟩ | ⟨index, hindex⟩
        · exact ⟨front.length, missing_last hu hv⟩
        · exact ⟨index, hindex.append [name]⟩

/-- The first of the names is missing exactly if it is that of no variable. -/
theorem missing_zero_iff {first : String} {rest : List String} :
    s.Missing scope (first :: rest) 0 ↔
      s.scopes.nearestVariable? scope first false = none := by
  constructor
  · intro h
    have hnone := h.unresolved
    cases hx : s.scopes.nearestVariable? scope first false with
    | none => rfl
    | some x => simp [resolve?, hx] at hnone
  · intro h
    exact ⟨Nat.succ_pos _, fun k hk hle => absurd hle (Nat.not_le_of_lt hk),
      by simp [resolve?, h]⟩

/-- A later name is missing if it is that of no field. -/
theorem Missing.field {first : String} {rest : List String} {k : Nat}
    (h : s.Missing scope (first :: rest) (k + 1)) :
    ∃ holder x, s.scopes.nearestVariable? scope first false = some (holder, x) ∧
      (s.heap.follow? x.value (rest.take k)).isSome ∧
      s.heap.follow? x.value (rest.take (k + 1)) = none := by
  have hfront := h.resolved (k + 1) (Nat.succ_pos k) (Nat.le_refl _)
  have hnone := h.unresolved
  cases hx : s.scopes.nearestVariable? scope first false with
  | none => simp [resolve?, hx] at hfront
  | some found =>
    simp only [resolve?, List.take_succ_cons, hx, Option.bind_some] at hfront hnone
    exact ⟨found.1, found.2, rfl, hfront, hnone⟩

end State

/-! ## States without host objects -/

namespace State

variable {s : State}

/-- No variable and no field holds an object of the host. -/
def Native (s : State) : Prop :=
  (∀ c ∈ s.scopes.scopes.values, ∀ x ∈ c.locals.values, x.value.isHost = false) ∧
    ∀ o ∈ s.heap.objects.toList, ∀ x ∈ o.values, x.value.isHost = false

instance (s : State) : Decidable s.Native := inferInstanceAs (Decidable (_ ∧ _))

theorem Native.field (h : s.Native) {ref : Nat} {name : String} {v : Value}
    (hv : s.heap.field? ref name = some v) : v.isHost = false := by
  obtain ⟨x, hx, rfl⟩ := Option.map_eq_some_iff.1 hv
  unfold Heap.fields at hx
  cases ho : s.heap.objects[ref]? with
  | none =>
    rw [ho] at hx
    cases hx
  | some o =>
    rw [ho] at hx
    have hmem : o ∈ s.heap.objects.toList := Array.mem_toList_iff.2 (Array.mem_of_getElem? ho)
    exact h.2 o hmem x (List.mem_map_of_mem (Table.mem_entries.2 hx))

theorem Native.heapAlong (h : s.Native) {v : Value} (hv : v.isHost = false) (names : List String) :
    s.heap.NativeAlong v names := by
  induction names generalizing v with
  | nil => trivial
  | cons name names ih =>
    refine ⟨hv, fun w hw => ih ?_⟩
    cases v with
    | object ref => exact h.field hw
    | _ => cases hw

theorem Native.along (h : s.Native) (scope : ScopeId) (names : List String) :
    s.NativeAlong scope names := by
  cases names with
  | nil => trivial
  | cons first rest =>
    intro holder x hx
    obtain ⟨c, hc, hlocal⟩ := ScopeTree.find?_of_nearestVariable? hx
    refine h.heapAlong (h.1 c ?_ x ?_) rest
    · exact List.mem_map_of_mem (Table.mem_entries.2 hc)
    · exact List.mem_map_of_mem (Table.mem_entries.2 hlocal)

end State

/-! ## Walks -/

namespace Eval

variable {engine : Engine} {s : State} {scope : ScopeId} {c : Scope} {v w : Value} {index : Nat}
  {segments : List Segment}

theorem child?_native (h : v.isHost = false) (name : String) :
    child? engine v name s = .ok (s.heap.member? v name) s := by
  cases v <;> first | rfl | cases h

theorem walk_reached (h : s.heap.follow? v (segments.map (·.name)) = some w) :
    walk engine index segments v s = .ok (.reached w) s := by
  have hn := Heap.nativeAlong_of_follow? h
  induction segments generalizing index v with
  | nil =>
    cases h
    rfl
  | cons segment rest ih =>
    obtain ⟨hv, hnext⟩ := hn
    rw [List.map_cons, Heap.follow?_cons] at h
    obtain ⟨u, hu, h⟩ := Option.bind_eq_some_iff.1 h
    rw [walk, Step.bind_of_ok (child?_native hv _), hu]
    exact ih h (hnext u hu)

/-- A walk goes on from where its first part ended. -/
theorem walk_append {front back : List Segment} {t : State}
    (h : walk engine index front v s = .ok (.reached w) t) :
    walk engine index (front ++ back) v s = walk engine (index + front.length) back w t := by
  induction front generalizing index v s with
  | nil =>
    cases h
    rfl
  | cons segment front ih =>
    obtain ⟨next, u, hnext, hrest⟩ := Step.exists_of_bind_ok h
    rw [List.cons_append, walk, Step.bind_of_ok hnext]
    cases next with
    | none => cases hrest
    | some next =>
      rw [List.length_cons, Nat.add_comm front.length, ← Nat.add_assoc]
      exact ih hrest

theorem walk_stopped {k : Nat} (hn : s.heap.NativeAlong v (segments.map (·.name)))
    (hk : k < segments.length)
    (hresolved : (s.heap.follow? v ((segments.map (·.name)).take k)).isSome)
    (hmissing : s.heap.follow? v ((segments.map (·.name)).take (k + 1)) = none) :
    walk engine index segments v s = .ok (.stopped (index + k)) s := by
  induction segments generalizing index v k with
  | nil => cases hk
  | cons segment rest ih =>
    obtain ⟨hv, hnext⟩ := hn
    rw [walk, Step.bind_of_ok (child?_native hv _)]
    rw [List.map_cons, List.take_succ_cons, Heap.follow?_cons] at hmissing
    cases k with
    | zero =>
      have hnone : s.heap.member? v segment.name = none := by simpa using hmissing
      rw [hnone]
      rfl
    | succ k =>
      rw [List.map_cons, List.take_succ_cons, Heap.follow?_cons] at hresolved
      cases hu : s.heap.member? v segment.name with
      | none =>
        rw [hu] at hresolved
        cases hresolved
      | some u =>
        rw [hu] at hresolved hmissing
        have hwalk : walk engine (index + 1) rest u s = .ok (.stopped (index + 1 + k)) s :=
          ih (hnext u hu) (Nat.lt_of_succ_lt_succ hk) hresolved hmissing
        rw [Nat.add_right_comm, Nat.add_assoc] at hwalk
        exact hwalk

/-! ## Reads and writes -/

theorem readPath_of_parse {text : String} {p : Path} (h : Path.parse text = .ok p) :
    readPath engine scope text = readAlong engine scope p := by
  rw [readPath, h]
  rfl

theorem writePath_of_parse {text : String} {p : Path} (h : Path.parse text = .ok p)
    (value : Value) : writePath engine scope text value = writeAlong engine scope p value := by
  rw [writePath, h]
  rfl

theorem askVariable_eq (hc : s.scopes.find? scope = some c) (name : String) :
    askScopes (fun t => t.findVariable scope name false) s =
      .ok ((s.scopes.nearestVariable? scope name false).map (·.2)) s := by
  have hfind : s.scopes.findVariable scope name false =
      .ok ((s.scopes.nearestVariable? scope name false).map (·.2)) := by
    rw [ScopeTree.findVariable, ScopeTree.get_of_find? hc]
    rfl
  show Step.ofExcept (s.scopes.findVariable scope name false) s = _
  rw [hfind]
  rfl

theorem askVariable_unregistered (hc : s.scopes.find? scope = none) (name : String) :
    askScopes (fun t => t.findVariable scope name false) s =
      .error (.of (.contextMissing scope)) s := by
  have hfind : s.scopes.findVariable scope name false = .error (.of (.contextMissing scope)) := by
    rw [ScopeTree.findVariable, ScopeTree.get, hc]
    rfl
  show Step.ofExcept (s.scopes.findVariable scope name false) s = _
  rw [hfind]
  rfl

end Eval

/-- Whether a read along the path ends without an error where the segment at a position is missing. -/
def Path.mayEndAt (p : Path) (index : Nat) : Bool :=
  index + 1 < p.length && if index = 0 then p.marks.all id else p.isSafeThrough index

namespace Eval

variable {engine : Engine} {s : State} {scope : ScopeId} {c : Scope} {v : Value} {index : Nat}
  {p : Path}

/-- All segments are found. -/
theorem readAlong_resolved (h : s.resolve? scope p.names = some v) :
    readAlong engine scope p s = .ok v s := by
  obtain ⟨c, hc⟩ := State.registered_of_resolve? h
  obtain ⟨segments⟩ := p
  cases segments with
  | nil => cases h
  | cons first rest =>
    obtain ⟨⟨holder, x⟩, hx, hv⟩ := Option.bind_eq_some_iff.1 h
    refine (Step.bind_of_ok (askVariable_eq hc first.name) _).trans ?_
    rw [hx]
    exact Step.bind_of_ok (walk_reached hv) _

theorem endOrFail (safe : Bool) :
    (if safe then pure .none else pathNotFound engine p index : Eval Value) s =
      if safe then .ok .none s else .error (p.notFound index engine.symbols) s := by
  cases safe <;> rfl

/-- A segment is missing. -/
theorem readAlong_missing (hc : s.scopes.find? scope = some c)
    (hn : s.NativeAlong scope p.names) (h : s.Missing scope p.names index) :
    readAlong engine scope p s =
      if p.mayEndAt index then .ok .none s else .error (p.notFound index engine.symbols) s := by
  obtain ⟨segments⟩ := p
  cases segments with
  | nil => exact absurd h.lt (Nat.not_lt_zero _)
  | cons first rest =>
    refine (Step.bind_of_ok (askVariable_eq hc first.name) _).trans ?_
    cases index with
    | zero =>
      rw [State.missing_zero_iff.1 h]
      refine (endOrFail _).trans ?_
      cases rest <;> rfl
    | succ k =>
      obtain ⟨holder, x, hx, hfront, hnone⟩ := h.field
      have hwalk : walk engine 1 rest x.value s = .ok (.stopped (1 + k)) s :=
        walk_stopped (hn holder x hx) (by simpa [Path.names] using h.lt) hfront hnone
      have hsafe (q : Path) : (decide (1 + k < q.length - 1) && q.isSafeThrough (1 + k)) =
          q.mayEndAt (k + 1) := by
        rw [Path.mayEndAt, if_neg (Nat.succ_ne_zero k), Nat.add_comm 1 k]
        congr 1
        exact decide_eq_decide.2 Nat.lt_sub_iff_add_lt
      rw [hx]
      refine (Step.bind_of_ok hwalk _).trans ((endOrFail _).trans ?_)
      rw [hsafe, Nat.add_comm 1 k]

/-- The scope is not registered. -/
theorem readAlong_unregistered (hc : s.scopes.find? scope = none) (hp : p.segments ≠ []) :
    readAlong engine scope p s = .error (.of (.contextMissing scope)) s := by
  obtain ⟨segments⟩ := p
  cases segments with
  | nil => exact absurd rfl hp
  | cons first rest => exact Step.bind_of_error (askVariable_unregistered hc first.name) _

/-! ## Writes -/

variable {first last : Segment} {middle : List Segment} {value : Value}

theorem exists_second (hp : p.segments = first :: middle ++ [last]) :
    ∃ second rest, p.segments = first :: second :: rest ∧ (second :: rest).dropLast = middle ∧
      (second :: rest).getLastD second = last := by
  obtain ⟨second, rest, hrest⟩ := List.exists_cons_of_ne_nil (List.concat_ne_nil last middle)
  refine ⟨second, rest, ?_, ?_, ?_⟩
  · rw [hp, List.cons_append, hrest]
  · rw [← hrest, List.dropLast_concat]
  · rw [← hrest, List.getLastD_concat]

/-- The object that has the field is found. -/
theorem writeAlong_reached (hp : p.segments = first :: middle ++ [last])
    (h : s.resolve? scope ((first :: middle).map (·.name)) = some v) :
    writeAlong engine scope p value s = writeLast engine p last v value s := by
  obtain ⟨c, hc⟩ := State.registered_of_resolve? h
  obtain ⟨⟨holder, x⟩, hx, hv⟩ := Option.bind_eq_some_iff.1 h
  obtain ⟨second, rest, hsegments, rfl, rfl⟩ := exists_second hp
  rw [writeAlong, hsegments]
  refine (Step.bind_of_ok (askVariable_eq hc first.name) _).trans ?_
  rw [hx]
  exact Step.bind_of_ok (walk_reached hv) _

/-- A segment before the last is missing. -/
theorem writeAlong_missing (hp : p.segments = first :: middle ++ [last])
    (hc : s.scopes.find? scope = some c) (hn : s.NativeAlong scope p.names)
    (h : s.Missing scope ((first :: middle).map (·.name)) index) :
    writeAlong engine scope p value s =
      if index ≠ 0 ∧ p.isSafeThrough index then .ok () s
      else .error (p.notFound index engine.symbols) s := by
  rw [Path.names, hp, List.map_append] at hn
  obtain ⟨second, rest, hsegments, rfl, rfl⟩ := exists_second hp
  rw [writeAlong, hsegments]
  refine (Step.bind_of_ok (askVariable_eq hc first.name) _).trans ?_
  cases index with
  | zero =>
    rw [State.missing_zero_iff.1 h, if_neg fun h => h.1 rfl]
    rfl
  | succ k =>
    obtain ⟨holder, x, hx, hfront, hnone⟩ := h.field
    have hwalk : walk engine 1 (second :: rest).dropLast x.value s = .ok (.stopped (1 + k)) s :=
      walk_stopped (Heap.nativeAlong_append.1 (hn holder x hx)).1 (by simpa using h.lt) hfront hnone
    rw [hx]
    refine (Step.bind_of_ok hwalk _).trans ?_
    dsimp only
    rw [Nat.add_comm 1 k]
    cases hsafe : p.isSafeThrough (k + 1) <;> rfl

theorem writeAlong_unregistered (hp : p.segments = first :: middle ++ [last])
    (hc : s.scopes.find? scope = none) :
    writeAlong engine scope p value s = .error (.of (.contextMissing scope)) s := by
  obtain ⟨second, rest, hsegments, -, -⟩ := exists_second hp
  rw [writeAlong, hsegments]
  exact Step.bind_of_error (askVariable_unregistered hc first.name) _

end Eval

end TreeScript
