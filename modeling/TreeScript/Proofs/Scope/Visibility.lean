import TreeScript.Proofs.Completion
import TreeScript.Proofs.Scope.Nearest

/-!
# What is in sight

From a scope, a name of an outer scope is in sight if no scope on the way there binds it (`InSight`). A
look-up reads the binding that is in sight, if there is one (`Reads`), and an assignment changes that one.

* `WellFormed.findVariable_eq_some_iff`: what a look-up gives.
* `WellFormed.findVariable_store`: a variable that is put into a scope is seen from just those scopes from
  which the name is in sight there. All other look-ups give what they gave before.
* `Reachable.writes_meet_reads`: so for an assignment and for a new variable.
-/

namespace TreeScript

theorem Variable.assign_eq_ok {v w : Variable} {value : Value} (h : v.assign value = .ok w) :
    v.constant = false ∧ v.type.adaptAs (Variable.title v.name) value = .ok w.value ∧
      w = { v with value := w.value } := by
  unfold Variable.assign at h
  split at h
  · cases h
  · next hconstant =>
    obtain ⟨stored, hadapt, h⟩ := exists_ok_of_bind h
    cases h
    exact ⟨Bool.eq_false_iff.2 hconstant, hadapt, rfl⟩

namespace ScopeTree

variable {t u : ScopeTree} {c d id holder p : ScopeId} {s : Scope} {name other : String} {v w y : Variable}
  {localOnly : Bool}

/-! ## Ways to a scope -/

/-- The variable that a scope itself binds a name to. -/
def local? (t : ScopeTree) (id : ScopeId) (name : String) : Option Variable :=
  (t.find? id).bind (·.locals.find? name)

/-- From `id` one sees what `holder` binds the name to: the scope `holder` is on the way from `id` to the
root, and no scope before it binds the name. A local search goes no further than `id` itself. -/
structure InSight (t : ScopeTree) (localOnly : Bool) (name : String) (holder id : ScopeId) : Prop where
  above : t.Below holder id
  near : localOnly = true → holder = id
  free : ∀ x, t.Below holder x → t.Below x id → x ≠ holder → t.local? x name = none

/-- A look-up of the name from `id` finds the variable `v` in the scope `holder`. -/
structure Reads (t : ScopeTree) (localOnly : Bool) (name : String) (id holder : ScopeId) (v : Variable) :
    Prop where
  inSight : t.InSight localOnly name holder id
  bound : t.local? holder name = some v

theorem local?_of_find? (hs : t.find? id = some s) (name : String) :
    t.local? id name = s.locals.find? name := by
  rw [local?, hs]
  rfl

/-- A look-up depends on the ways to the root and on what is bound under the name. -/
theorem Reads.of_local?_eq (h : t.Reads localOnly name id holder v)
    (hbelow : ∀ a x, t.Below a x ↔ u.Below a x) (hlocal : ∀ x, t.local? x name = u.local? x name) :
    u.Reads localOnly name id holder v := by
  refine ⟨⟨(hbelow _ _).1 h.inSight.above, h.inSight.near, fun x hx hxid hne => ?_⟩, ?_⟩
  · rw [← hlocal]
    exact h.inSight.free x ((hbelow _ _).2 hx) ((hbelow _ _).2 hxid) hne
  · rw [← hlocal]
    exact h.bound

namespace WellFormed

variable (wf : t.WellFormed)

include wf

theorem below_antisymm (h : t.Below c d) (h' : t.Below d c) : c = d :=
  Nat.le_antisymm (wf.le_of_below h) (wf.le_of_below h')

theorem inSight_self (hs : t.find? id = some s) : t.InSight localOnly name id id where
  above := wf.below_refl hs
  near _ := rfl
  free _ hx hx' hne := absurd (wf.below_antisymm hx' hx) hne

/-- One sees the scopes before a scope that is in sight. -/
theorem inSight_inner (h : t.InSight localOnly name holder id) (hx : t.Below holder c)
    (hxid : t.Below c id) : t.InSight localOnly name c id := by
  by_cases hc : c = holder
  · exact hc ▸ h
  refine ⟨hxid, fun hlocal => ?_, fun z hz hzid _ => h.free z (wf.below_trans hx hz) hzid ?_⟩
  · exact absurd (wf.below_antisymm (h.near hlocal ▸ hxid) hx) hc
  · rintro rfl
    exact hc (wf.below_antisymm hz hx)

/-- From a scope one sees further if the scope does not bind the name, and then as far as from its
parent. -/
theorem inSight_iff (hs : t.find? id = some s) (hne : holder ≠ id) :
    t.InSight localOnly name holder id ↔ localOnly = false ∧ s.locals.find? name = none ∧
      ∃ p, s.parent = some p ∧ t.InSight localOnly name holder p := by
  rw [← local?_of_find? hs]
  constructor
  · intro h
    obtain ⟨s', hs', heq | ⟨p, hp, hb⟩⟩ := wf.below_iff.1 h.above
    · exact absurd heq hne
    rw [hs] at hs'
    cases hs'
    have hwide : localOnly = false := Bool.eq_false_iff.2 fun hlocal => hne (h.near hlocal)
    refine ⟨hwide, h.free id h.above (wf.below_refl hs) hne.symm, p, hp, hb, by simp [hwide], ?_⟩
    intro x hx hxp
    exact h.free x hx (wf.below_step hs hp hxp)
  · rintro ⟨hwide, hfree, p, hp, h⟩
    refine ⟨wf.below_step hs hp h.above, by simp [hwide], ?_⟩
    intro x hx hxid hxne
    obtain ⟨s', hs', rfl | ⟨q, hq, hb⟩⟩ := wf.below_iff.1 hxid
    · exact hfree
    · rw [hs] at hs'
      cases hs'
      rw [hp] at hq
      cases hq
      exact h.free x hx hb hxne

/-! ## Look-ups -/

/-- A look-up takes the binding of the scope itself, or goes on with the parent. -/
theorem nearestVariable?_of_find? (hs : t.find? id = some s) :
    t.nearestVariable? id name localOnly = ((s.locals.find? name).map (id, ·)).or
      (if localOnly then none else s.parent.bind fun p => t.nearestVariable? p name localOnly) := by
  unfold nearestVariable? searched
  cases localOnly with
  | true =>
    rw [if_pos rfl, if_pos rfl, hs]
    exact nearest?_cons _ (id, s) []
  | false =>
    simp only [Bool.false_eq_true, if_false]
    rw [wf.ancestry_of_find? hs, nearest?_cons]
    cases s.parent <;> rfl

/-- **Look-ups find what is in sight.** -/
theorem nearestVariable?_eq_some_iff :
    t.nearestVariable? id name localOnly = some (holder, v) ↔ t.Reads localOnly name id holder v := by
  -- Along the parents, which are older.
  induction id using Nat.strongRecOn with
  | ind id ih =>
    cases hs : t.find? id with
    | none =>
      have hnone : t.nearestVariable? id name localOnly = none := by
        unfold nearestVariable? searched
        rw [hs, ancestry_of_none hs]
        cases localOnly <;> rfl
      rw [hnone]
      refine iff_of_false (by simp) fun h => ?_
      obtain ⟨s, hs'⟩ := wf.find?_of_below h.inSight.above
      rw [hs] at hs'
      cases hs'
    | some s =>
      rw [wf.nearestVariable?_of_find? hs]
      cases hv : s.locals.find? name with
      | some w =>
        rw [Option.map_some, Option.some_or, Option.some.injEq, Prod.mk.injEq]
        constructor
        · rintro ⟨rfl, rfl⟩
          exact ⟨wf.inSight_self hs, (local?_of_find? hs name).trans hv⟩
        · rintro ⟨hsight, hw⟩
          have hid : holder = id := by
            by_contra hne
            have hfree := ((wf.inSight_iff hs hne).1 hsight).2.1
            simp [hv] at hfree
          subst hid
          rw [local?_of_find? hs, hv] at hw
          exact ⟨rfl, Option.some.inj hw⟩
      | none =>
        have hne (h : t.Reads localOnly name id holder v) : holder ≠ id := by
          rintro rfl
          have hw := h.bound
          simp [local?_of_find? hs, hv] at hw
        rw [Option.map_none, Option.none_or]
        constructor
        · intro h
          split at h
          · cases h
          · next hwide =>
            obtain ⟨p, hp, h⟩ := Option.bind_eq_some_iff.1 h
            obtain ⟨hsight, hbound⟩ := (ih p (wf.parent_lt hs hp)).1 h
            have hlt := Nat.lt_of_le_of_lt (wf.le_of_below hsight.above) (wf.parent_lt hs hp)
            refine ⟨(wf.inSight_iff hs (Nat.ne_of_lt hlt)).2 ?_, hbound⟩
            exact ⟨Bool.eq_false_iff.2 hwide, hv, p, hp, hsight⟩
        · intro h
          obtain ⟨hwide, -, p, hp, hsight⟩ := (wf.inSight_iff hs (hne h)).1 h.inSight
          rw [hwide, if_neg Bool.false_ne_true, hp, ← hwide]
          exact (ih p (wf.parent_lt hs hp)).2 ⟨hsight, h.bound⟩

theorem findVariable_eq_some_iff :
    t.findVariable id name localOnly = .ok (some v) ↔ ∃ holder, t.Reads localOnly name id holder v := by
  unfold findVariable get
  constructor
  · intro h
    cases hs : t.find? id with
    | none =>
      rw [hs] at h
      cases h
    | some s =>
      rw [hs] at h
      obtain ⟨⟨holder, w⟩, hfound, rfl⟩ := Option.map_eq_some_iff.1 (Except.ok.inj h)
      exact ⟨holder, wf.nearestVariable?_eq_some_iff.1 hfound⟩
  · rintro ⟨holder, h⟩
    obtain ⟨s, hs⟩ := wf.find?_of_below h.inSight.above
    rw [hs, wf.nearestVariable?_eq_some_iff.2 h]
    rfl

/-! ## Changes of bindings -/

theorem store (holder : ScopeId) (name : String) (y : Variable) : (t.store holder name y).WellFormed :=
  wf.of_links (t.sameLinks_modify holder fun _ => rfl) (Nat.le_refl _)

theorem below_store {a x : ScopeId} (holder : ScopeId) (name : String) (y : Variable) :
    (t.store holder name y).Below a x ↔ t.Below a x := by
  have hlinks : SameLinks t (t.store holder name y) := t.sameLinks_modify holder fun _ => rfl
  have wf' := wf.store holder name y
  exact ⟨wf'.below_of_links wf hlinks.symm, wf.below_of_links wf' hlinks⟩

omit wf in
theorem local?_store (hc : t.find? c = some s) (y : Variable) (x : ScopeId) (other : String) :
    (t.store c name y).local? x other = if x = c ∧ other = name then some y else t.local? x other := by
  unfold local? ScopeTree.store
  rw [find?_modify]
  by_cases hx : c = x
  · subst hx
    rw [if_pos rfl, hc]
    simp [Scope.store]
  · simp [hx, Ne.symm hx]

/-- From where the scope is in sight, the variable is seen. -/
theorem reads_store_of_inSight (hc : t.find? c = some s) (y : Variable)
    (h : t.InSight localOnly name c id) : (t.store c name y).Reads localOnly name id c y := by
  refine ⟨⟨(wf.below_store c name y).2 h.above, h.near, ?_⟩, ?_⟩
  · intro x hx hxid hne
    rw [local?_store hc, if_neg (fun heq => hne heq.1)]
    exact h.free x ((wf.below_store c name y).1 hx) ((wf.below_store c name y).1 hxid) hne
  · rw [local?_store hc, if_pos ⟨rfl, rfl⟩]

/-- From elsewhere, and under other names, nothing changes. -/
theorem reads_store_iff (hc : t.find? c = some s) (y : Variable)
    (h : ¬(other = name ∧ t.InSight localOnly name c id)) :
    (t.store c name y).Reads localOnly other id holder v ↔ t.Reads localOnly other id holder v := by
  have hbelow {a x : ScopeId} := @below_store t wf a x c name y
  by_cases hname : other = name
  · subst hname
    have hother {x : ScopeId} (hx : t.InSight localOnly other x id) : ¬(x = c ∧ other = other) := by
      rintro ⟨rfl, -⟩
      exact h ⟨rfl, hx⟩
    constructor
    · rintro ⟨⟨habove, hnear, hfree⟩, hbound⟩
      have hsight' : t.InSight localOnly other holder id := by
        refine ⟨hbelow.1 habove, hnear, fun x hx hxid hne => ?_⟩
        -- A scope before the holder is not `c`, since that binds the name now.
        have hlocal := hfree x (hbelow.2 hx) (hbelow.2 hxid) hne
        rw [local?_store hc] at hlocal
        split at hlocal
        · cases hlocal
        · exact hlocal
      refine ⟨hsight', ?_⟩
      rw [local?_store hc, if_neg (hother hsight')] at hbound
      exact hbound
    · rintro ⟨hsight', hbound⟩
      refine ⟨⟨hbelow.2 hsight'.above, hsight'.near, fun x hx hxid hxne => ?_⟩, ?_⟩
      · have hinner := wf.inSight_inner hsight' (hbelow.1 hx) (hbelow.1 hxid)
        rw [local?_store hc, if_neg (hother hinner)]
        exact hsight'.free x (hbelow.1 hx) (hbelow.1 hxid) hxne
      · rw [local?_store hc, if_neg (hother hsight')]
        exact hbound
  · have hlocal (x : ScopeId) : (t.store c name y).local? x other = t.local? x other := by
      rw [local?_store hc, if_neg (fun heq => hname heq.2)]
    constructor
    · intro hreads
      exact hreads.of_local?_eq (fun _ _ => hbelow) hlocal
    · intro hreads
      exact hreads.of_local?_eq (fun _ _ => hbelow.symm) fun x => (hlocal x).symm

/-- **A variable that is put into a scope** is what look-ups give from where the scope is in sight under
that name. All other look-ups give what they gave before. -/
theorem findVariable_store (hc : t.find? c = some s) (y : Variable) (id : ScopeId) (other : String)
    (localOnly : Bool) :
    (other = name ∧ t.InSight localOnly name c id →
      (t.store c name y).findVariable id other localOnly = .ok (some y)) ∧
    (¬(other = name ∧ t.InSight localOnly name c id) →
      (t.store c name y).findVariable id other localOnly = t.findVariable id other localOnly) := by
  have wf' := wf.store c name y
  constructor
  · rintro ⟨rfl, hsight⟩
    exact wf'.findVariable_eq_some_iff.2 ⟨c, wf.reads_store_of_inSight hc y hsight⟩
  · intro hother
    have hnearest : (t.store c name y).nearestVariable? id other localOnly =
        t.nearestVariable? id other localOnly := by
      refine Option.ext fun found => ?_
      obtain ⟨holder, v⟩ := found
      rw [wf'.nearestVariable?_eq_some_iff, wf.nearestVariable?_eq_some_iff]
      exact wf.reads_store_iff hc y hother
    have hget : (t.store c name y).find? id =
        (t.find? id).map fun r => if c = id then r.store name y else r := by
      unfold ScopeTree.store
      rw [find?_modify]
      split <;> simp
    unfold findVariable get
    rw [hnearest, hget]
    cases t.find? id <;> rfl

end WellFormed

/-! ## Assignments and declarations -/

/-- An assignment changes the variable that a look-up reads. -/
structure AssignsNearest (t : ScopeTree) (c : ScopeId) (name : String) (value : Value) : Prop where
  /-- It fails where the look-up fails. -/
  missing : ∀ e, t.findVariable c name false = .error e → t.assignVariable c name value = .error e
  /-- It fails where the look-up finds nothing. -/
  unbound : t.findVariable c name false = .ok none →
    t.assignVariable c name value = .error (.of (.variableNotFound name))
  /-- It fails where the variable does not admit the value. -/
  refused : ∀ v e, t.findVariable c name false = .ok (some v) → v.assign value = .error e →
    t.assignVariable c name value = .error e
  /-- Otherwise it changes the value of the variable in the scope that the look-up reads from. The
  look-ups that read from there give the variable with the value it admitted, and the others give what
  they gave before. -/
  assigned : ∀ v w, t.findVariable c name false = .ok (some v) → v.assign value = .ok w →
    v.constant = false ∧ v.type.adaptAs (Variable.title v.name) value = .ok w.value ∧
    w = { v with value := w.value } ∧
    ∃ holder s u, t.Reads false name c holder v ∧ t.find? holder = some s ∧
      t.assignVariable c name value = .ok u ∧ u.nextId = t.nextId ∧
      u.find? holder = some { s with locals := s.locals.insert name w } ∧
      (∀ x, x ≠ holder → u.find? x = t.find? x) ∧
      ∀ d other localOnly,
        (other = name ∧ t.Reads localOnly name d holder v →
          u.findVariable d other localOnly = .ok (some w)) ∧
        (¬(other = name ∧ t.Reads localOnly name d holder v) →
          u.findVariable d other localOnly = t.findVariable d other localOnly)

/-- A new variable of the scope `c` is seen from where `c` is in sight under its name; the other look-ups
give what they gave before. -/
def DefinesInSight (t : ScopeTree) (c : ScopeId) (v : Variable) (u : ScopeTree) : Prop :=
  ∀ d other localOnly,
    (other = v.name ∧ t.InSight localOnly v.name c d → u.findVariable d other localOnly = .ok (some v)) ∧
    (¬(other = v.name ∧ t.InSight localOnly v.name c d) →
      u.findVariable d other localOnly = t.findVariable d other localOnly)

theorem assignVariable_of_none (hs : t.find? c = some s) (hnearest : t.nearestVariable? c name false = none)
    (value : Value) : t.assignVariable c name value = .error (.of (.variableNotFound name)) := by
  unfold assignVariable
  rw [get_of_find? hs, hnearest]
  rfl

theorem assignVariable_of_some (hs : t.find? c = some s)
    (hnearest : t.nearestVariable? c name false = some (holder, v)) (value : Value) :
    t.assignVariable c name value = (v.assign value).map (t.store holder name) := by
  unfold assignVariable
  rw [get_of_find? hs, hnearest]
  cases hw : v.assign value <;> simp [bind, Except.bind, hw] <;> rfl

theorem findVariable_of_find? (hs : t.find? c = some s) (name : String) (localOnly : Bool) :
    t.findVariable c name localOnly = .ok ((t.nearestVariable? c name localOnly).map (·.2)) := by
  unfold findVariable
  rw [get_of_find? hs]
  rfl

theorem WellFormed.assignsNearest (wf : t.WellFormed) (c : ScopeId) (name : String) (value : Value) :
    t.AssignsNearest c name value := by
  cases hs : t.find? c with
  | none =>
    have hget : t.get c = .error (.of (.contextMissing c)) := by
      unfold get
      rw [hs]
    have hfind : t.findVariable c name false = .error (.of (.contextMissing c)) := by
      unfold findVariable
      rw [hget]
      rfl
    have hassign : t.assignVariable c name value = .error (.of (.contextMissing c)) := by
      unfold assignVariable
      rw [hget]
      rfl
    constructor
    · intro e h
      cases hfind.symm.trans h
      exact hassign
    · intro h
      cases hfind.symm.trans h
    · intro v e h
      cases hfind.symm.trans h
    · intro v w h
      cases hfind.symm.trans h
  | some s =>
    have hfind := findVariable_of_find? hs name false
    cases hnearest : t.nearestVariable? c name false with
    | none =>
      rw [hnearest, Option.map_none] at hfind
      constructor
      · intro e h
        cases hfind.symm.trans h
      · intro _
        exact assignVariable_of_none hs hnearest value
      · intro v e h
        cases hfind.symm.trans h
      · intro v w h
        cases hfind.symm.trans h
    | some found =>
      obtain ⟨holder, v⟩ := found
      have hassign := assignVariable_of_some hs hnearest value
      rw [hnearest, Option.map_some] at hfind
      constructor
      · intro e h
        cases hfind.symm.trans h
      · intro h
        cases hfind.symm.trans h
      · intro v' e h he
        obtain rfl : v = v' := Option.some.inj (Except.ok.inj (hfind.symm.trans h))
        rw [hassign, he]
        rfl
      · intro v' w h hw
        obtain rfl : v = v' := Option.some.inj (Except.ok.inj (hfind.symm.trans h))
        obtain ⟨hconstant, hadapt, heq⟩ := Variable.assign_eq_ok hw
        have hreads := wf.nearestVariable?_eq_some_iff.1 hnearest
        obtain ⟨r, hr, -⟩ := Option.bind_eq_some_iff.1 hreads.bound
        refine ⟨hconstant, hadapt, heq, holder, r, t.store holder name w, hreads, hr, ?_, rfl,
          find?_modify_self hr _, fun x hx => find?_modify_ne (Ne.symm hx) _, fun d other localOnly => ?_⟩
        · rw [hassign, hw]
          rfl
        · have hsee : t.Reads localOnly name d holder v ↔ t.InSight localOnly name holder d :=
            ⟨fun h => h.inSight, fun h => ⟨h, hreads.bound⟩⟩
          rw [hsee]
          exact wf.findVariable_store hr w d other localOnly

theorem WellFormed.definesInSight (wf : t.WellFormed) (h : t.defineVariable c v = .ok u) :
    t.DefinesInSight c v u := by
  obtain ⟨s, hs, h⟩ := find?_of_get_bind h
  split at h
  · cases h
  · cases h
    exact fun d other localOnly => wf.findVariable_store hs v d other localOnly

/-- **Writes and reads meet.** A look-up gives the variable of the nearest scope that binds the name. An
assignment changes the variable in that scope, and fails where there is none; it is seen from just those
scopes whose look-ups read from there. A new variable of a scope is seen from those scopes below it that
reach the scope before another binding of the name. Nothing else changes for any look-up. -/
theorem Reachable.writes_meet_reads (h : t.Reachable) :
    (∀ d name localOnly v, t.findVariable d name localOnly = .ok (some v) ↔
      ∃ holder, t.Reads localOnly name d holder v) ∧
    (∀ c name value, t.AssignsNearest c name value) ∧
    ∀ c v u, t.defineVariable c v = .ok u → t.DefinesInSight c v u :=
  ⟨fun _ _ _ _ => h.wellFormed.findVariable_eq_some_iff,
    fun c name value => h.wellFormed.assignsNearest c name value,
    fun _ _ _ hu => h.wellFormed.definesInSight hu⟩

/-- Four scopes: `2` and `3` are in `1`, and `1` is in the root. The root and `2` bind `x`. -/
def shaded : ScopeTree :=
  (Engine.bare.perform [.create root, .create 1, .create 1, .declare root "x" false .any (.int 1),
    .declare 2 "x" false .any (.int 2)] .initial).scopes

/-- What is assigned from `3` is stored in the root. It is seen from `1` and not from `2`. A new variable
of `1` is seen from `3` and not from `2`. -/
theorem Reachable.writes_meet_reads_shaded :
    shaded.Reachable ∧
      (∃ u v, shaded.assignVariable 3 "x" (.int 5) = .ok u ∧
        u.findVariable 1 "x" false = .ok (some v) ∧ v.value = .int 5 ∧
        u.findVariable 2 "x" false = shaded.findVariable 2 "x" false) ∧
      ∃ u, shaded.defineVariable 1 ⟨"x", true, .any, .int 7, 1, none⟩ = .ok u ∧
        u.findVariable 3 "x" false = .ok (some ⟨"x", true, .any, .int 7, 1, none⟩) ∧
        u.findVariable 2 "x" false = shaded.findVariable 2 "x" false := by
  have h : shaded.Reachable := Engine.Reachable.scopes (Engine.reaches_perform ..)
  have wf := h.wellFormed
  obtain ⟨-, hassigns, hdefines⟩ := h.writes_meet_reads
  have hreads (id : ScopeId) (holder : ScopeId) (v : Variable)
      (hv : shaded.nearestVariable? id "x" false = some (holder, v)) :
      shaded.Reads false "x" id holder v := wf.nearestVariable?_eq_some_iff.1 hv
  refine ⟨h, ?_, ?_⟩
  · obtain ⟨-, -, -, holder, s, u, hholder, -, hu, -, -, -, hseen⟩ :=
      (hassigns 3 "x" (.int 5)).assigned ⟨"x", false, .any, .int 1, 0, none⟩
        ⟨"x", false, .any, .int 5, 0, none⟩ rfl rfl
    have hroot : shaded.nearestVariable? 3 "x" false = some (root, ⟨"x", false, .any, .int 1, 0, none⟩) :=
      rfl
    rw [wf.nearestVariable?_eq_some_iff.2 hholder] at hroot
    obtain rfl : holder = root := congrArg Prod.fst (Option.some.inj hroot)
    refine ⟨u, _, hu, (hseen 1 "x" false).1 ⟨rfl, hreads _ _ _ rfl⟩, rfl, (hseen 2 "x" false).2 ?_⟩
    rintro ⟨-, hread⟩
    cases wf.nearestVariable?_eq_some_iff.2 hread
  · refine ⟨_, rfl, (hdefines 1 _ _ rfl 3 "x" false).1 ⟨rfl, ?_⟩, (hdefines 1 _ _ rfl 2 "x" false).2 ?_⟩
    · exact (wf.inSight_iff rfl (by decide)).2 ⟨rfl, rfl, 1, rfl, wf.inSight_self rfl⟩
    · rintro ⟨-, hsight⟩
      cases ((wf.inSight_iff rfl (by decide)).1 hsight).2.1

end ScopeTree

end TreeScript
