import TreeScript.Proofs.Pairing.Basic
import TreeScript.Proofs.Path.Marks
import TreeScript.Proofs.Path.Slots

/-!
# Writing along a path and reading back

Where no object of the host is asked for a field, a write along a path fails and changes nothing, or it
has done one of three things (`Eval.Written`):

* it has stored what the type of one slot makes of the value,
* a name before the last is missing, and the path may end there,
* the last name is to be that of a field of none, and the segment before it is marked.

In the first case the same path leads to the value that was stored, unless an object was passed twice. In
the second a read ends at the same name, with none. In the third a read fails, as the last name is never
optional for it.
-/

namespace TreeScript

/-- An assignment fails, or stores what the type of the variable makes of the value. -/
theorem Variable.assign_cases (x : Variable) (value : Value) :
    (∃ e, x.assign value = .error e) ∨
      ∃ w, x.type.adapt? value = some w ∧ x.assign value = .ok { x with value := w } := by
  unfold assign
  split
  · exact .inl ⟨_, rfl⟩
  · cases hw : x.type.adaptAs (title x.name) value with
    | error e => exact .inl ⟨e, rfl⟩
    | ok w => exact .inr ⟨w, ValueType.adaptAs_eq_ok hw, rfl⟩

theorem ScopeTree.assignVariable_cases (t : ScopeTree) (id : ScopeId) (name : String)
    (value : Value) :
    (∃ e, t.assignVariable id name value = .error e) ∨
      ∃ holder x w, t.nearestVariable? id name false = some (holder, x) ∧
        x.type.adapt? value = some w ∧
        t.assignVariable id name value = .ok (t.store holder name { x with value := w }) := by
  unfold assignVariable
  cases t.get id with
  | error e => exact .inl ⟨e, rfl⟩
  | ok c =>
    cases hx : t.nearestVariable? id name false with
    | none => exact .inl ⟨_, rfl⟩
    | some found =>
      obtain ⟨holder, x⟩ := found
      simp only [bind, Except.bind]
      rcases x.assign_cases value with ⟨e, he⟩ | ⟨w, hw, hok⟩
      · rw [he]
        exact .inl ⟨e, rfl⟩
      · rw [hok]
        exact .inr ⟨holder, x, w, rfl, hw, rfl⟩

theorem Heap.assignField_cases (h : Heap) (ref : Nat) (name : String) (value : Value) :
    (∃ e, h.assignField ref name value = .error e) ∨ h.assignField ref name value = .ok none ∨
      ∃ x w, (h.fields ref).find? name = some x ∧ x.type.adapt? value = some w ∧
        h.assignField ref name value = .ok (some (h.store ref name { x with value := w })) := by
  unfold assignField
  cases hx : (h.fields ref).find? name with
  | none => exact .inr (.inl rfl)
  | some x =>
    dsimp only
    rcases x.assign_cases value with ⟨e, he⟩ | ⟨w, hw, hok⟩
    · rw [he]
      exact .inl ⟨e, rfl⟩
    · rw [hok]
      exact .inr (.inr ⟨x, w, rfl, hw, rfl⟩)

/-- The last name is to be that of a field of none, and the segment before it is marked. -/
def State.EndsInNone (s : State) (scope : ScopeId) (p : Path) : Prop :=
  s.resolve? scope p.names.dropLast = some .none ∧ p.marks.getLast? = some true

theorem Path.exists_last {p : Path} (hp : p.segments ≠ []) :
    ∃ front last, p.segments = front ++ [last] ∧ p.names = front.map (·.name) ++ [last.name] := by
  obtain ⟨front, last, hsegments⟩ := List.eq_nil_or_concat p.segments |>.resolve_left hp
  rw [List.concat_eq_append] at hsegments
  refine ⟨front, last, hsegments, ?_⟩
  rw [names, hsegments, List.map_append, List.map_singleton]

namespace Eval

variable {engine : Engine} {s s' : State} {scope : ScopeId} {c : Scope} {text : String} {p : Path}
  {value : Value}

/-- What a write along a path has done. -/
inductive Written (s : State) (scope : ScopeId) (p : Path) (value : Value) : State → Prop
  | stored {slot : Slot} {x : Variable} {w : Value} (leads : s.LeadsTo scope p.names slot)
      (held : s.slot? slot = some x) (admitted : x.type.adapt? value = some w) :
      Written s scope p value (s.put slot { x with value := w })
  | ended {index : Nat} (missing : s.Missing scope p.names index) (later : 0 < index)
      (safe : p.mayEndAt index = true) : Written s scope p value s
  | ignored (none : s.EndsInNone scope p) : Written s scope p value s

/-- A write fails and changes nothing, or it has done what is to be done. -/
def Writes (s : State) (scope : ScopeId) (p : Path) (value : Value) (o : Outcome State Error Unit) :
    Prop :=
  (∃ e, o = .error e s) ∨ ∃ s', o = .ok () s' ∧ Written s scope p value s'

theorem writes_variable {only : Segment} (hp : p.segments = [only]) :
    Writes s scope p value (writeAlong engine scope p value s) := by
  have hwrite : writeAlong engine scope p value s =
      changeScopes (fun t => t.assignVariable scope only.name value) s := by
    rw [writeAlong, hp]
  have hnames : p.names = [only.name] := by
    rw [Path.names, hp]
    rfl
  rw [hwrite, Pairing.Follows.changeScopes_eq]
  rcases s.scopes.assignVariable_cases scope only.name value with
    ⟨e, he⟩ | ⟨holder, x, w, hx, hw, hok⟩
  · rw [he]
    exact .inl ⟨e, rfl⟩
  · obtain ⟨c, hc, hlocal⟩ := ScopeTree.find?_of_nearestVariable? hx
    have hleads : s.LeadsTo scope p.names (.binding holder only.name) := by
      rw [hnames]
      exact .binding hx
    rw [hok]
    exact .inr ⟨_, rfl, .stored hleads (Option.bind_eq_some_iff.2 ⟨c, hc, hlocal⟩) hw⟩

theorem writes_field {ref : Nat} {front : List String} {last : Segment}
    (hp : p.names = front ++ [last.name]) (h : s.resolve? scope front = some (.object ref)) :
    Writes s scope p value (writeLast engine p last (.object ref) value s) := by
  have hleads : s.LeadsTo scope p.names (.field ref last.name) := by
    rw [hp]
    exact .field h
  show Writes s scope p value ((Step.ofExcept (s.heap.assignField ref last.name value) >>= _) s)
  rcases s.heap.assignField_cases ref last.name value with
    ⟨e, he⟩ | hnone | ⟨x, w, hx, hw, hok⟩
  · rw [he]
    exact .inl ⟨e, rfl⟩
  · rw [hnone]
    exact .inl ⟨_, rfl⟩
  · rw [hok]
    exact .inr ⟨_, rfl, .stored hleads hx hw⟩

theorem writes_none {front : List String} {last : Segment} (hp : p.names = front ++ [last.name])
    (h : s.resolve? scope front = some .none) :
    Writes s scope p value (writeLast engine p last .none value s) := by
  unfold writeLast
  cases hmark : p.marks.getLast? with
  | none => exact .inl ⟨_, rfl⟩
  | some mark =>
    cases mark with
    | false => exact .inl ⟨_, rfl⟩
    | true =>
      refine .inr ⟨s, rfl, .ignored ⟨?_, hmark⟩⟩
      rw [hp, List.dropLast_concat]
      exact h

/-- How a write along a path over objects of a script ends. -/
theorem writes (hp : p.segments ≠ []) (hn : s.NativeAlong scope p.names) :
    Writes s scope p value (writeAlong engine scope p value s) := by
  obtain ⟨front, last, hsegments, hnames⟩ := Path.exists_last hp
  cases front with
  | nil => exact writes_variable hsegments
  | cons first middle =>
    cases hc : s.scopes.find? scope with
    | none => exact .inl ⟨_, writeAlong_unregistered hsegments hc⟩
    | some c =>
      have hne : (first :: middle).map (·.name) ≠ [] := List.cons_ne_nil _ _
      rcases s.resolved_or_missing scope hne with ⟨v, hv⟩ | ⟨index, hindex⟩
      · rw [writeAlong_reached hsegments hv]
        cases v with
        | object ref => exact writes_field hnames hv
        | none => exact writes_none hnames hv
        | host typeName ref =>
          rw [hnames] at hn
          cases hn.holder hv
        | _ => exact .inl ⟨_, rfl⟩
      · rw [writeAlong_missing hsegments hc hn hindex]
        split
        · next hsafe =>
          have hmissing : s.Missing scope p.names index := by
            rw [hnames]
            exact hindex.append _
          have hlt : index + 1 < p.length := by
            rw [← Path.length_names, hnames, List.length_append]
            exact Nat.succ_lt_succ hindex.lt
          refine .inr ⟨s, rfl, .ended hmissing (Nat.pos_of_ne_zero hsafe.1) ?_⟩
          rw [Path.mayEndAt, if_neg hsafe.1, hsafe.2, decide_eq_true hlt]
          rfl
        · exact .inl ⟨_, rfl⟩

theorem written_of_ok (hp : p.segments ≠ []) (hn : s.NativeAlong scope p.names)
    (h : writeAlong engine scope p value s = .ok () s') : Written s scope p value s' := by
  rcases writes hp hn with ⟨e, he⟩ | ⟨t, ht, hwritten⟩
  · rw [he] at h
    cases h
  · rw [ht] at h
    cases h
    exact hwritten

/-- Nothing is written to a field of none, if it is optional. -/
theorem writeAlong_of_endsInNone (h : s.EndsInNone scope p) :
    writeAlong engine scope p value s = .ok () s := by
  obtain ⟨hnone, hmark⟩ := h
  have hp : p.segments ≠ [] := by
    rintro hnil
    rw [Path.names, hnil] at hnone
    cases hnone
  obtain ⟨front, last, hsegments, hnames⟩ := Path.exists_last hp
  rw [hnames, List.dropLast_concat] at hnone
  cases front with
  | nil => cases hnone
  | cons first middle =>
    rw [writeAlong_reached hsegments hnone, writeLast, hmark]
    rfl

/-! ## Reading back -/

/-- After a write, the same path is read without an error, unless the write was ignored. -/
theorem Written.readAlong (h : Written s scope p value s') (hn : s.NativeAlong scope p.names)
    (hpassed : (s.passed scope p.names).Nodup) :
    (∃ v, readAlong engine scope p s' = .ok v s') ∨ s.EndsInNone scope p := by
  cases h with
  | stored hleads hx hw =>
    exact .inl ⟨_, readAlong_resolved (State.resolve?_put hleads hx hpassed _)⟩
  | ended hmissing hlater hsafe =>
    obtain ⟨v, hv⟩ := Option.isSome_iff_exists.1 (hmissing.resolved 1 Nat.one_pos hlater)
    obtain ⟨c, hc⟩ := State.registered_of_resolve? hv
    exact .inl ⟨.none, (readAlong_missing hc hn hmissing).trans (if_pos hsafe)⟩
  | ignored hnone => exact .inr hnone

/-- None has no fields, so the last name is missing, which no mark makes up for. -/
theorem failsAt_of_endsInNone (hp : Path.parse text = .ok p) (h : s.EndsInNone scope p)
    (hn : s.NativeAlong scope p.names) : FailsAt engine scope text s (p.length - 1) := by
  obtain ⟨hnone, -⟩ := h
  have hsplit := List.dropLast_append_getLast (Path.names_ne_nil hp)
  have hlast :
      s.resolve? scope (p.names.dropLast ++ [p.names.getLast (Path.names_ne_nil hp)]) = none := by
    rw [State.resolve?_append s scope (State.ne_nil_of_resolve? hnone), hnone]
    rfl
  have hmissing := State.missing_last hnone hlast
  rw [hsplit, List.length_dropLast, Path.length_names] at hmissing
  have hend : p.mayEndAt (p.length - 1) = false := by
    have hlt : ¬p.length - 1 + 1 < p.length :=
      Nat.not_lt_of_le (Nat.le_add_of_sub_le (Nat.le_refl _))
    rw [Path.mayEndAt, decide_eq_false hlt, Bool.false_and]
  obtain ⟨c, hc⟩ := State.registered_of_resolve? hnone
  refine ⟨p, hp, hmissing, ?_⟩
  rw [readPath_of_parse hp, readAlong_missing hc hn hmissing, hend]
  rfl

theorem exists_parse {α : Type} {f : Path → Eval α} {a : α}
    (h : (Step.ofExcept (Path.parse text) >>= f) s = .ok a s') :
    ∃ p, Path.parse text = .ok p ∧ f p s = .ok a s' := by
  cases hp : Path.parse text with
  | error e =>
    rw [hp] at h
    cases h
  | ok p =>
    rw [hp] at h
    exact ⟨p, rfl, h⟩

/-- **A path that was written can be read.** Over objects of a script without cycles, a path is read
without an error after every write along it that did not fail, whatever its marks, with one exception. If
the value before the last segment is none and the segment of it is marked, the write is ignored, and the
read fails at the last segment. -/
theorem readPath_of_writePath (hs : s.Native) (hh : s.heap.Acyclic)
    (h : writePath engine scope text value s = .ok () s') :
    ∃ p, Path.parse text = .ok p ∧
      (¬s.EndsInNone scope p → ∃ v, readPath engine scope text s' = .ok v s') ∧
      (s.EndsInNone scope p → s' = s ∧ FailsAt engine scope text s' (p.length - 1)) := by
  obtain ⟨p, hp, hok⟩ := exists_parse h
  have hn := hs.along scope p.names
  refine ⟨p, hp, fun hend => ?_, fun hend => ?_⟩
  · have hwritten := written_of_ok (Path.segments_ne_nil hp) hn hok
    rw [readPath_of_parse hp]
    exact (hwritten.readAlong hn (State.nodup_passed hh scope p.names)).resolve_right hend
  · rw [writeAlong_of_endsInNone hend] at hok
    cases hok
    exact ⟨rfl, failsAt_of_endsInNone hp hend hn⟩

/-- The field `c` is written although it is not optional, as it is there. -/
theorem readPath_of_writePath_nested :
    let s := State.nested
    let s' := Engine.bare.perform [.write 0 "a؟:b:c" (.int 2)] s
    s.Native ∧ s.heap.Acyclic ∧ writePath Engine.bare 0 "a؟:b:c" (.int 2) s = .ok () s' ∧
      ∃ v, readPath Engine.bare 0 "a؟:b:c" s' = .ok v s' := by
  intro s s'
  have hs : s.Native := by decide +kernel
  have hlayered : s.heap.Layered := by decide +kernel
  have hwrite : writePath Engine.bare 0 "a؟:b:c" (.int 2) s = .ok () s' := rfl
  have hq : Path.parse "a؟:b:c" = .ok ⟨[⟨"a", true⟩, ⟨"b", false⟩, ⟨"c", false⟩]⟩ :=
    Path.parse_eq_ok_iff.2 (by decide +kernel)
  obtain ⟨p, hp, hread, -⟩ := readPath_of_writePath hs hlayered.acyclic hwrite
  cases hq.symm.trans hp
  exact ⟨hs, hlayered.acyclic, hwrite, hread fun hend => absurd hend.2 (by decide)⟩

/-- A field of none is ignored by a write and missed by a read. -/
theorem writePath_of_none_unread :
    let s := State.nested
    s.Native ∧ s.heap.Acyclic ∧ writePath Engine.bare 0 "f؟:b" (.int 2) s = .ok () s ∧
      (readPath Engine.bare 0 "f؟:b" s).failure?.map (·.code) =
        some "RUNTIME_VARIABLE_NOT_FOUND" := by
  intro s
  have hlayered : s.heap.Layered := by decide +kernel
  exact ⟨by decide +kernel, hlayered.acyclic, rfl, by decide +kernel⟩

/-! ## One slot -/

/-- An object is read along a path only if all segments are found. -/
theorem walk_of_readAlong {ref : Nat} {t : State}
    (h : readAlong engine scope p s = .ok (.object ref) t) :
    ∃ first rest x, p.segments = first :: rest ∧
      askScopes (fun t => t.findVariable scope first.name false) s = .ok (some x) s ∧
      walk engine 1 rest x.value s = .ok (.reached (.object ref)) t := by
  unfold readAlong at h
  cases hp : p.segments with
  | nil =>
    rw [hp] at h
    cases h
  | cons first rest =>
    rw [hp] at h
    obtain ⟨found, u, hfound, h⟩ := Step.exists_of_bind_ok h
    have hu : u = s := by
      cases hc : s.scopes.find? scope with
      | none =>
        rw [askVariable_unregistered hc] at hfound
        cases hfound
      | some c =>
        rw [askVariable_eq hc] at hfound
        cases hfound
        rfl
    subst hu
    cases found with
    | none =>
      dsimp only at h
      split at h <;> cases h
    | some x =>
      obtain ⟨walked, u, hwalk, h⟩ := Step.exists_of_bind_ok h
      cases walked with
      | reached w =>
        cases h
        exact ⟨first, rest, x, rfl, hfound, hwalk⟩
      | stopped index =>
        dsimp only at h
        split at h <;> cases h

/-- What the field of an object holds is read wherever the object is. -/
theorem readPath_field {name : String} {ref : Nat} {w : Value}
    (h : readPath engine scope text s = .ok (.object ref) s)
    (hname : Path.ofText? name = some ⟨[⟨name, false⟩]⟩) (hw : s.heap.field? ref name = some w) :
    readPath engine scope (text ++ ":" ++ name) s = .ok w s := by
  obtain ⟨p, hp, hread⟩ := exists_parse h
  have hq := Path.parse_eq_ok_iff.2 (Path.ofText?_append (Path.parse_eq_ok_iff.1 hp) hname)
  obtain ⟨first, rest, x, hsegments, hx, hwalk⟩ := walk_of_readAlong hread
  rw [readPath_of_parse hq, hsegments]
  refine (Step.bind_of_ok hx _).trans ?_
  have hend : walk engine (1 + rest.length) [⟨name, false⟩] (.object ref) s = .ok (.reached w) s :=
    walk_reached (by simpa [Heap.follow?_cons, Heap.member?] using hw)
  exact Step.bind_of_ok ((walk_append hwalk).trans hend) _

theorem not_mem_marks (hp : ∀ seg ∈ p.segments, seg.optional = false) : true ∉ p.marks := by
  intro hmem
  obtain ⟨seg, hseg, htrue⟩ := List.mem_map.1 hmem
  rw [hp seg (List.dropLast_subset _ hseg)] at htrue
  cases htrue

/-- Without marks, a write that did not fail has stored the value. -/
theorem Written.stored_of_unmarked (h : Written s scope p value s')
    (hp : ∀ seg ∈ p.segments, seg.optional = false) :
    ∃ slot x w, s.LeadsTo scope p.names slot ∧ s.slot? slot = some x ∧
      x.type.adapt? value = some w ∧ s' = s.put slot { x with value := w } := by
  have hmarks := not_mem_marks hp
  cases h with
  | stored hleads hx hw => exact ⟨_, _, _, hleads, hx, hw, rfl⟩
  | @ended index hmissing hlater hsafe =>
    rw [Path.mayEndAt, if_neg (Nat.ne_of_gt hlater), Path.isSafeThrough] at hsafe
    cases hfirst : p.marks with
    | nil => simp [hfirst] at hsafe
    | cons mark rest =>
      have hmark : mark = true := by simp_all
      exact absurd (hfirst ▸ hmark ▸ List.mem_cons_self) hmarks
  | ignored hnone => exact absurd (List.mem_of_getLast? hnone.2) hmarks

/-- **A write along a path changes one slot or nothing.** Let `text` be a path over objects of a script.

If it has no marks and no object is passed twice, a write that does not fail stores what the type of one
slot makes of the value: the one that the path leads to. No other slot changes. The same path is then
read as the stored value, and so is the field of the object along every path to the object.

A write that fails changes nothing. -/
theorem writePath_one_slot (hp : Path.parse text = .ok p) (hn : s.NativeAlong scope p.names) :
    (∀ s', (∀ seg ∈ p.segments, seg.optional = false) → (s.passed scope p.names).Nodup →
      writePath engine scope text value s = .ok () s' →
      ∃ slot x w, s.LeadsTo scope p.names slot ∧ s.slot? slot = some x ∧
        x.type.adapt? value = some w ∧ readPath engine scope text s' = .ok w s' ∧
        s' = s.put slot { x with value := w } ∧
        (∀ other, s'.slot? other =
          if other = slot then some { x with value := w } else s.slot? other) ∧
        ∀ ref name, slot = .field ref name → ∀ scope' text',
          readPath engine scope' text' s' = .ok (.object ref) s' →
          readPath engine scope' (text' ++ ":" ++ name) s' = .ok w s') ∧
    ((∃ s', writePath engine scope text value s = .ok () s') ∨
      ∃ e, writePath engine scope text value s = .error e s) := by
  rw [writePath_of_parse hp]
  refine ⟨fun s' hmarks hpassed h => ?_, ?_⟩
  · obtain ⟨slot, x, w, hleads, hx, hw, rfl⟩ :=
      (written_of_ok (Path.segments_ne_nil hp) hn h).stored_of_unmarked hmarks
    have hslots := State.slot?_put hx { x with value := w }
    refine ⟨slot, x, w, hleads, hx, hw, ?_, rfl, hslots, ?_⟩
    · rw [readPath_of_parse hp]
      exact readAlong_resolved (State.resolve?_put hleads hx hpassed _)
    · rintro ref name rfl scope' text' hobject
      obtain ⟨seg, hseg, rfl⟩ := List.mem_map.1 hleads.name_mem
      have hfield := (hslots (.field ref seg.name)).trans (if_pos rfl)
      exact readPath_field hobject (Path.ofText?_name hp hseg)
        (congrArg (Option.map Variable.value) hfield)
  · rcases writes (Path.segments_ne_nil hp) hn with ⟨e, he⟩ | ⟨s', hs', -⟩
    · exact .inr ⟨e, he⟩
    · exact .inl ⟨s', hs'⟩

/-- The field `c` of the object in `a` is written, and also seen from `d`. -/
theorem writePath_one_slot_nested :
    let s := State.nested
    let s' := Engine.bare.perform [.write 0 "a:b:c" (.int 2)] s
    Engine.bare.Reachable s ∧ s.NativeAlong 0 ["a", "b", "c"] ∧
      s.passed 0 ["a", "b", "c"] = [1, 0] ∧
      writePath Engine.bare 0 "a:b:c" (.int 2) s = .ok () s' ∧
      ∃ w, ValueType.adapt? (.primitive "float") (.int 2) = some w ∧
        readPath Engine.bare 0 "a:b:c" s' = .ok w s' ∧ readPath Engine.bare 0 "d:c" s' = .ok w s' := by
  intro s s'
  have hs : s.Native := by decide +kernel
  have hp : Path.parse "a:b:c" = .ok ⟨[⟨"a", false⟩, ⟨"b", false⟩, ⟨"c", false⟩]⟩ :=
    Path.parse_eq_ok_iff.2 (by decide +kernel)
  have hpassed : s.passed 0 ["a", "b", "c"] = [1, 0] := by decide +kernel
  have hwrite : writePath Engine.bare 0 "a:b:c" (.int 2) s = .ok () s' := rfl
  have hobject : readPath Engine.bare 0 "d" s' = .ok (.object 0) s' := rfl
  obtain ⟨slot, x, w, hleads, hx, hw, hread, -, -, halias⟩ :=
    (writePath_one_slot hp (hs.along 0 _)).1 s' (by decide) (by decide +kernel) hwrite
  have hslot : s.LeadsTo 0 (["a", "b"] ++ ["c"]) (.field 0 "c") := .field rfl
  have hfield := hleads.unique hslot rfl
  have htype : (s.slot? (.field 0 "c")).map (·.type) = some (.primitive "float") := rfl
  rw [← hfield, hx] at htype
  have hfloat : x.type = .primitive "float" := Option.some.inj htype
  rw [hfloat] at hw
  exact ⟨Engine.reaches_perform .., hs.along 0 _, hpassed, hwrite, w, hw, hread,
    halias 0 "c" hfield 0 "d" hobject⟩

end Eval

end TreeScript
