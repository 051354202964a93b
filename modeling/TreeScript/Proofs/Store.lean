import TreeScript.Proofs.Eval.Signals
import TreeScript.Proofs.Host
import TreeScript.Proofs.Pairing.Shared
import TreeScript.Proofs.Scope.Teardown
import TreeScript.Proofs.Scope.Tidy

/-!
# What the store keeps

The store is what variables and fields hold. Over any sequence of actions of a host,

* every variable of a scope and every field of an object holds a value that its type admits,
* a variable or field that is there stays there for as long as its scope or object does, with the
  same name, type, constancy and depth, and with the same value if it is constant.

Both are read off a pairing of a run with itself: `Pairing.lasting t₀ h₀` asks that the variables of
the scopes `t₀` and the fields of the heap `h₀` are still there, and that the
tree of scopes is tidy.
-/

namespace TreeScript

/-! ## Tables of variables -/

/-- The variables `l₀` are still there in `l`, and all of `l` are admitted. -/
structure Lasts (l₀ l : Table String Variable) : Prop where
  admits : Admits l
  continues : ∀ name x, l₀.find? name = some x → ∃ y, l.find? name = some y ∧ x.Continues y

namespace Lasts

variable {l₀ l l' : Table String Variable}

theorem refl (h : Admits l) : Lasts l l := ⟨h, fun _ x hx => ⟨x, hx, .refl x⟩⟩

theorem of_empty (h : Admits l) : Lasts ∅ l := ⟨h, fun _ _ hx => nomatch hx⟩

theorem insert {x : Variable} (h : Lasts l₀ l) (hfree : l.find? x.name = none) (hx : x.Admitted) :
    Lasts l₀ (l.insert x.name x) := by
  refine ⟨fun name y hy => ?_, fun name y hy => ?_⟩
  · rw [Table.find?_insert] at hy
    split at hy
    · cases hy
      exact hx
    · exact h.admits name y hy
  · obtain ⟨z, hz, hc⟩ := h.continues name y hy
    refine ⟨z, ?_, hc⟩
    rw [Table.find?_insert, if_neg, hz]
    rintro rfl
    rw [hfree] at hz
    cases hz

theorem assign {name : String} {x y : Variable} {value : Value} (h : Lasts l₀ l)
    (hx : l.find? name = some x) (hy : x.assign value = .ok y) : Lasts l₀ (l.insert name y) := by
  obtain ⟨hc, ha⟩ := Variable.continues_of_assign hy
  refine ⟨fun n z hz => ?_, fun n z hz => ?_⟩
  · rw [Table.find?_insert] at hz
    split at hz
    · cases hz
      exact ha
    · exact h.admits n z hz
  · obtain ⟨w, hw, hcw⟩ := h.continues n z hz
    rw [Table.find?_insert]
    split
    · next heq =>
      subst heq
      rw [hx] at hw
      cases hw
      exact ⟨y, rfl, hcw.trans hc⟩
    · exact ⟨w, hw, hcw⟩

theorem merge (h : Lasts l₀ l) (h' : Admits l') (keep : String → Variable → Bool) :
    Lasts l₀ (l.merge (l'.filter keep)) := by
  refine ⟨fun name x hx => ?_, fun name x hx => ?_⟩
  · rw [Table.find?_merge, Table.find?_filter] at hx
    rcases Option.or_eq_some_iff.1 hx with hx | ⟨-, hx⟩
    · exact h.admits name x hx
    · exact h' name x (Option.eq_some_of_filter_eq_some hx)
  · obtain ⟨y, hy, hc⟩ := h.continues name x hx
    exact ⟨y, by rw [Table.find?_merge, hy]; rfl, hc⟩

end Lasts

/-! ## The pairing -/

/-- The variables of the scopes `t₀` are still there. -/
def Facets.lasting (t₀ : ScopeTree) : Facets where
  low := t₀.nextId
  locals id l := Lasts ((t₀.find? id).elim ∅ (·.locals)) l
  functions f f' := f' = f
  executed _ e e' := e' = e
  pending _ a b := b = a

theorem Facets.lawful_lasting {t₀ : ScopeTree} (wf : t₀.WellFormed) : (lasting t₀).Lawful where
  fresh {id} hid := by
    have hnone : t₀.find? id = none := by
      cases hs : t₀.find? id with
      | none => rfl
      | some s => exact absurd (wf.bound id s hs) (Nat.not_lt.2 hid)
    refine ⟨?_, rfl, rfl⟩
    show Lasts ((t₀.find? id).elim ∅ (·.locals)) ∅
    rw [hnone]
    exact .of_empty fun _ _ hx => nomatch hx
  insert h hfree hx := Lasts.insert h hfree hx
  assign h hx hy := Lasts.assign h hx hy
  merge keep h h' := Lasts.merge h h'.admits keep
  depth h := by rw [h]
  add node h := congrArg (KeySet.add · node) h
  removeAll nodes h := congrArg (KeySet.removeAll · nodes) h
  union _ h h' := congrArg₂ KeySet.union h h'

/-- The fields of the heap `h₀` are still there. -/
def Heap.Lasts (h₀ h : Heap) : Prop := ∀ ref, TreeScript.Lasts (h₀.fields ref) (h.fields ref)

namespace Heap

variable {h₀ h h' : Heap}

theorem Lasts.extend (hl : h₀.Lasts h) (hx : h.Extends h') : h₀.Lasts h' := by
  obtain ⟨made, hmade, hadmits⟩ := hx
  intro ref
  have hget : h'.objects[ref]? = (h.objects.toList ++ made)[ref]? := by
    rw [← hmade, Array.getElem?_toList]
  have hold := hl ref
  unfold Heap.fields at hold ⊢
  rw [hget, List.getElem?_append, Array.length_toList, Array.getElem?_toList]
  split
  · exact hold
  · next hout =>
    -- A new object is none of those in `h₀`.
    rw [Array.getElem?_eq_none (Nat.not_lt.1 hout)] at hold
    refine ⟨?_, fun name x hx => ?_⟩
    · cases hm : made[ref - h.objects.size]? with
      | none => exact fun _ _ hx => nomatch hx
      | some fields => exact hadmits fields (List.mem_of_getElem? hm)
    · obtain ⟨_, hy, -⟩ := hold.continues name x hx
      cases hy

theorem Lasts.assign {ref : Nat} {name : String} {value : Value} (hl : h₀.Lasts h)
    (ha : h.assignField ref name value = .ok (some h')) : h₀.Lasts h' := by
  unfold assignField at ha
  cases hx : (h.fields ref).find? name with
  | none =>
    rw [hx] at ha
    cases ha
  | some x =>
    rw [hx] at ha
    obtain ⟨y, hy, ha⟩ := exists_ok_of_bind ha
    cases ha
    intro r
    have hr := hl r
    unfold Heap.fields setFields
    dsimp only
    rw [Array.getElem?_setIfInBounds]
    split
    · next heq =>
      subst heq
      split
      · exact hr.assign hx hy
      · next hout =>
        rw [Heap.fields, Array.getElem?_eq_none (Nat.not_lt.1 hout)] at hx
        cases hx
    · exact hr

end Heap

/-- A run with itself, in which the variables of `t₀` and the fields of `h₀` are still there. -/
def Pairing.lasting (t₀ : ScopeTree) (h₀ : Heap) : Pairing where
  View := Unit
  Line := Thread
  scopes _ t t' := t.Paired (.lasting t₀) t' ∧ t.Tidy
  threads u _ r r' := (r = u ∧ r' = u) ∧ True
  world w w' := w' = w ∧ h₀.Lasts w.heap
  heap h := World.heap_eq_of_eq_and h
  tasks a a' := List.Forall₂ (Task.Paired Eq) a.toList a'.toList
  jobs j j' := j.Paired (fun f f' => f' = f ∧ True) j'
  signable _ := True
  functions f f' := f' = f
  errors := Eq
  texts := Eq
  allowed _ _ _ := True
  ready _ := True
  astray _ := False
  astray_mono _ h := h

namespace Pairing

variable {t₀ : ScopeTree} {h₀ : Heap} (wf : t₀.WellFormed)

include wf

theorem scopeForm_lasting :
    (lasting t₀ h₀).ScopeForm (.lasting t₀) fun _ t => t.Tidy where
  lawful := Facets.lawful_lasting wf
  functions := rfl
  scopes := Iff.rfl
  same h hsame := h.same hsame
  jumps _ h _ _ _ := by rw [h]

omit wf in
theorem threadForm_lasting : (lasting t₀ h₀).ThreadForm id fun _ _ => True :=
  .of_all Iff.rfl (fun t => ⟨t, rfl⟩) (fun _ => trivial) (fun _ => trivial) id

omit wf in
theorem worldForm_lasting : (lasting t₀ h₀).WorldForm h₀.Lasts where
  world := Iff.rfl
  extend := Heap.Lasts.extend
  assign := Heap.Lasts.assign

theorem lockstep_lasting : (lasting t₀ h₀).Lockstep :=
  .of_forms (scopeForm_lasting wf) (fun _ _ _ => Iff.rfl) threadForm_lasting worldForm_lasting
    (fun _ => id) id (fun h hb => h.beginTask hb) (fun h owner => h.endTask owner) Iff.rfl
    Iff.rfl

theorem laws_lasting (engine : Engine) : (lasting t₀ h₀).Laws engine where
  toScopeLaws := (scopeForm_lasting wf).steady (fun _ _ _ => Iff.rfl) (fun h hc => h.create hc)
    (fun h _ hr => h.release hr) fun _ _ _ _ => ⟨fun _ => id, fun _ _ _ => trivial⟩
  toThreadLaws := threadForm_lasting.laws
  toWorldLaws := worldForm_lasting.laws engine (lockstep_lasting wf).threads
  toFunctionLaws := {
    resembles := fun h => h ▸ .refl _
    sync := fun h => by rw [h.1]; exact id
    made := fun _ _ => rfl
    child := fun _ _ => trivial
    default := fun _ _ _ _ => trivial }
  toErrorLaws := .of_eq rfl rfl id

theorem visits_lasting (engine : Engine) (limit : Nat) :
    (lasting t₀ h₀).Visits (Eval.visit engine limit) (Eval.visit engine limit) :=
  (laws_lasting wf engine).visits (fun _ _ hv => (lockstep_lasting wf).rules (laws_lasting wf engine) hv)
    limit

end Pairing

/-! ## Actions -/

namespace Action

open Pairing Follows

variable {t₀ : ScopeTree} {h₀ : Heap} {engine : Engine} {s t : State}

theorem state?_discard {α : Type} (x : Eval α) (s : State) :
    ((do let _ ← x : Eval Unit) s).state? = (x s).state? := by
  rw [Step.run_bind]
  cases x s <;> rfl

/-- Actions on scopes. -/
theorem apart_updateScopes {α : Type} {f : ScopeTree → Except Error (α × ScopeTree)}
    (hf : ∀ u u' a, u.Paired (.lasting t₀) u → u.Tidy → f u = .ok (a, u') →
      u'.Paired (.lasting t₀) u' ∧ u'.Tidy)
    (hs : (lasting t₀ h₀).Apart s s) (ht : (Eval.updateScopes f s).state? = some t) :
    (lasting t₀ h₀).Apart t t := by
  obtain ⟨v, u, hat⟩ := hs
  rw [updateScopes_eq] at ht
  cases hr : f s.scopes with
  | error e =>
    rw [hr] at ht
    cases ht
    exact ⟨v, u, hat⟩
  | ok r =>
    rw [hr] at ht
    cases ht
    exact ⟨v, u, hat.withScopes (hf _ _ _ hat.scopes.1 hat.scopes.2 hr)⟩

/-- Actions on the thread. -/
theorem apart_thread (r : Thread) (hs : (lasting t₀ h₀).Apart s s) :
    (lasting t₀ h₀).Apart { s with thread := r } { s with thread := r } := by
  obtain ⟨v, u, hat⟩ := hs
  exact ⟨v, r, hat.withThread ⟨⟨rfl, rfl⟩, trivial⟩⟩

/-- **One action.** It leaves a state that is paired with itself. -/
theorem apart (wf : t₀.WellFormed) (action : Action) (hs : (lasting t₀ h₀).Apart s s)
    (ht : (action.perform engine s).state? = some t) : (lasting t₀ h₀).Apart t t := by
  have hl : (lasting t₀ h₀).Laws engine := laws_lasting wf engine
  have hlock : (lasting t₀ h₀).Lockstep := lockstep_lasting wf
  have hv : (lasting t₀ h₀).Visits engine.visit engine.visit :=
    visits_lasting wf engine Eval.patience
  have hrules := hlock.rules hl hv
  have hlawful := Facets.lawful_lasting wf
  have hself {x : Eval Unit} (ht : (x s).state? = some t)
      (hx : ∀ v u, (lasting t₀ h₀).Follows True Eq Eq v u x x) : (lasting t₀ h₀).Apart t t :=
    Follows.apart hx (fun _ => id) hs ht
  have hdone {α : Type} {x : Eval α} (ht : ((do let _ ← x : Eval Unit) s).state? = some t)
      (hx : ∀ v u, (lasting t₀ h₀).Follows True Eq Eq v u x x) : (lasting t₀ h₀).Apart t t :=
    hself ht fun v u => bind_same (hx v u) fun _ => .pure ()
  have hallowed {v : Unit} (scope : ScopeId) (n : Node) : (lasting t₀ h₀).allowed v scope n := trivial
  cases action with
  | build value =>
    obtain ⟨v, u, hat⟩ := hs
    rw [perform, state?_discard] at ht
    unfold Eval.updateHeap Step.update at ht
    dsimp only at ht
    cases hr : (Heap.build value).run s.heap with
    | error e =>
      rw [hr] at ht
      cases ht
      exact ⟨v, u, hat⟩
    | ok r =>
      rw [hr] at ht
      cases ht
      exact ⟨v, u, hat.withWorld (hl.extend hat.world (Heap.extends_of_build hr))⟩
  | create scope =>
    rw [perform, state?_discard] at ht
    refine apart_updateScopes (fun x y a hx htidy hr => ⟨?_, htidy.create hr⟩) hs ht
    have hmade := hx.create hlawful scope
    rw [hr] at hmade
    cases hmade with
    | ok h => exact h.2
  | release scope =>
    rw [perform, state?_discard] at ht
    refine apart_updateScopes (fun x y a hx htidy hr => ⟨?_, htidy.release hr⟩) hs ht
    have hreleased := hx.release hlawful (fun _ _ _ => Iff.rfl) scope
    rw [hr] at hreleased
    cases hreleased with
    | ok h => exact h.2
  | declare scope name constant type value =>
    exact hself ht fun v u => hl.declare name constant type value
  | define scope depth name constant type value =>
    exact hself ht fun v u => bind_ofExcept (fun _ => rfl) fun x hx =>
      changeScopes hl.refl fun _ _ _ h =>
        hl.defineVariable h scope (Variable.admitted_of_make hx)
  | assign scope name value =>
    exact hself ht fun v u => changeScopes hl.refl fun _ _ _ h => hl.assignVariable h scope name value
  | write scope path value => exact hself ht fun v u => hl.writePath (.same fun _ => rfl) scope path value
  | function scope node owner depth =>
    refine hself ht fun v u => bind_having (hl.makeFunction (fun _ => hallowed scope node) owner depth)
      fun f => ?_
    exact changeScopes hl.refl fun hf _ _ h => hl.defineFunction h scope hf.2
  | implementation scope name depth members =>
    refine hself ht fun v u => bind_having (hl.makeImplementation
      (fun _ => hallowed scope ⟨0, .origin, .program members⟩) name depth fun _ => id) fun i => ?_
    exact changeScopes hl.refl fun hi _ _ h => hl.defineImplementation h scope hi.2
  | call scope name arguments index span =>
    exact hdone ht fun v u => hl.call hv hrules
      (fun _ => ⟨hallowed scope ⟨0, .origin, .program []⟩, trivial⟩) name arguments index span
  | visit scope node =>
    exact hdone ht fun v u => (hv v u scope node).given fun _ => ⟨trivial, trivial⟩
  | run program =>
    exact hdone ht fun v u => (hv.evaluate program).given fun _ => ⟨trivial, trivial⟩
  | markExecuted scope node =>
    exact hself ht fun v u => changeScopes hl.refl fun _ _ _ h => hl.markExecuted h scope node
  | clearExecuted scope node => exact hself ht fun v u => hl.forget scope node
  | spawn owner label callId counted work =>
    exact hdone ht fun v u => hlock.spawn hl hv fun _ => .self fun _ _ => ⟨rfl, trivial⟩
  | join task => exact hdone ht fun v u => hl.join hrules (fun _ => trivial) task
  | settle => exact hself ht fun v u => hlock.settle hl hv
  | openGate gate =>
    obtain ⟨v, u, hat⟩ := hs
    cases ht
    exact ⟨v, u, hat.withWorld ⟨rfl, hat.world.2⟩⟩
  | pop =>
    rw [perform, state?_discard] at ht
    unfold Eval.updateThread Step.update at ht
    dsimp only at ht
    cases hpop : s.thread.pop <;> rw [hpop] at ht <;> cases ht
    · exact hs
    · exact apart_thread _ hs
  | push | setResult | setCallId | reset =>
    cases ht
    exact apart_thread _ hs

end Action

/-! ## Sound states -/

/-- The functions that a scope binds are scripts. -/
def Scope.Scripted (c : Scope) : Prop :=
  ∀ name f, c.functions.find? name = some f → ∃ g, f = .script g

/-- Scopes that bind scripts are paired with themselves. -/
theorem ScopeTree.WellFormed.paired_self {F : Facets} {t : ScopeTree} (wf : t.WellFormed)
    (hscripts : t.All Scope.Scripted) (hlow : F.low ≤ t.nextId)
    (hlocals : ∀ id c, t.find? id = some c → F.locals id c.locals)
    (hfunctions : ∀ {id c name f}, t.find? id = some c →
      c.functions.find? name = some (.script f) → F.functions f f)
    (hmembers : ∀ {id c name i member f}, t.find? id = some c →
      c.implementations.find? name = some i → i.functions.find? member = some f → F.functions f f)
    (hexecuted : ∀ id e, F.executed id e e) (hpending : ∀ id n, F.pending id n n) : t.Paired F t := by
  obtain ⟨root, hroot, hparent, -⟩ := wf.root
  refine ⟨rfl, hlow, wf.bound _ _ hroot, fun c hc => ?_, fun id => rel_self fun c hc => ?_⟩
  · rw [hroot] at hc
    cases hc
    exact hparent
  · refine ⟨rfl, rfl, rfl, rfl, hpending _ _, rfl, hlocals id c hc, fun name => rel_self fun f hf => ?_,
      fun name => rel_self fun i hi => ?_, hexecuted _ _⟩
    · obtain ⟨g, rfl⟩ := hscripts id c hc name f hf
      exact .script (hfunctions hc hf)
    · exact ⟨rfl, rfl, fun member => rel_self fun f hf => hmembers hc hi hf⟩

/-- What holds of the state of a runtime whatever a host does. -/
structure State.Sound (s : State) : Prop where
  tidy : s.scopes.Tidy
  locals : ∀ id c, s.scopes.find? id = some c → Admits c.locals
  scripts : s.scopes.All Scope.Scripted
  fields : ∀ ref, Admits (s.heap.fields ref)

namespace State.Sound

variable {s : State}

theorem initial : State.initial.Sound := by
  refine ⟨ScopeTree.tidy_initial, fun id c hc => ?_, fun id c hc name f hf => ?_, fun ref => ?_⟩
  · cases ScopeTree.eq_fresh_of_find?_initial hc
    exact fun _ _ hx => nomatch hx
  · cases ScopeTree.eq_fresh_of_find?_initial hc
    cases hf
  · exact fun _ _ hx => nomatch hx

/-- A sound state is paired with itself, its own variables and fields still being there. -/
theorem apart (h : s.Sound) : (Pairing.lasting s.scopes s.heap).Apart s s := by
  have hscopes : s.scopes.Paired (.lasting s.scopes) s.scopes := by
    refine h.tidy.wellFormed.paired_self h.scripts (Nat.le_refl _) (fun id c hc => ?_)
      (fun _ _ => rfl) (fun _ _ _ => rfl) (fun _ _ => rfl) fun _ _ => rfl
    show Lasts ((s.scopes.find? id).elim ∅ (·.locals)) c.locals
    rw [hc]
    exact .refl (h.locals id c hc)
  have hjob (j : Job) : j.Paired (fun f f' => f' = f ∧ True) j := ⟨.self fun _ _ => ⟨rfl, trivial⟩⟩
  exact ⟨(), s.thread, ⟨hscopes, h.tidy⟩, ⟨⟨rfl, rfl⟩, trivial⟩,
    ⟨rfl, fun ref => .refl (h.fields ref)⟩, List.forall₂_same.2 fun t _ => .self t,
    List.forall₂_same.2 fun j _ => hjob j, fun _ _ => trivial⟩

theorem of_apart {t₀ : ScopeTree} {h₀ : Heap} (h : (Pairing.lasting t₀ h₀).Apart s s) :
    s.Sound := by
  obtain ⟨v, u, hat⟩ := h
  obtain ⟨hpaired, htidy⟩ := hat.scopes
  have hscope {id c} (hc : s.scopes.find? id = some c) : Scope.Paired (.lasting t₀) id c c := by
    have hid := hpaired.scopes id
    rw [hc] at hid
    cases hid with
    | some hid => exact hid
  refine ⟨htidy, fun id c hc => (hscope hc).stored.admits, fun id c hc name f hf => ?_, fun ref =>
    (hat.world.2 ref).admits⟩
  have hname := (hscope hc).functions name
  rw [hf] at hname
  cases hname with
  | some hname =>
    obtain ⟨-⟩ := hname
    exact ⟨_, rfl⟩

/-- What a computation leaves of a sound state is sound. -/
theorem after {α : Type} {x : Eval α} {t : State} (h : s.Sound)
    (hx : ∀ v u, (Pairing.lasting s.scopes s.heap).Follows True Eq Eq v u x x)
    (ht : (x s).state? = some t) : t.Sound :=
  .of_apart (Pairing.Follows.apart hx (fun _ => id) h.apart ht)

end State.Sound

namespace Engine.Reaches

variable {engine : Engine} {s t : State}

/-- **Any sequence of actions.** It leaves a state that is paired with itself. -/
theorem apart {t₀ : ScopeTree} {h₀ : Heap} (wf : t₀.WellFormed)
    (hs : (Pairing.lasting t₀ h₀).Apart s s) (h : engine.Reaches s t) :
    (Pairing.lasting t₀ h₀).Apart t t := by
  induction h with
  | refl => exact hs
  | step _ action ended ih => exact Action.apart wf action ih ended

end Engine.Reaches

theorem Engine.Reachable.sound {engine : Engine} {s : State} (h : engine.Reachable s) : s.Sound :=
  .of_apart (Engine.Reaches.apart ScopeTree.wellFormed_initial State.Sound.initial.apart h)

/-- **The store over whole runs.** In every state that a host can reach, the values of all variables
and fields are admitted by their types. Whatever happens from there, each variable and each field
continues: it keeps its name, type, constancy and depth, and its value if it is constant. -/
theorem Engine.Reaches.store_typed_and_constant {engine : Engine} {s t : State}
    (hs : engine.Reachable s) (h : engine.Reaches s t) :
    (∀ id c name x, t.scopes.find? id = some c → c.locals.find? name = some x →
      x.type.adapt? x.value = some x.value) ∧
    (∀ ref name x, (t.heap.fields ref).find? name = some x →
      x.type.adapt? x.value = some x.value) ∧
    (∀ id c d name x, s.scopes.find? id = some c → t.scopes.find? id = some d →
      c.locals.find? name = some x → ∃ y, d.locals.find? name = some y ∧ x.Continues y) ∧
    ∀ ref name x, (s.heap.fields ref).find? name = some x →
      ∃ y, (t.heap.fields ref).find? name = some y ∧ x.Continues y := by
  have hsound := Engine.Reachable.sound hs
  have hapart := Engine.Reaches.apart hsound.tidy.wellFormed hsound.apart h
  have hafter := State.Sound.of_apart hapart
  obtain ⟨v, u, hat⟩ := hapart
  refine ⟨fun id c name x hc hx => hafter.locals id c hc name x hx,
    fun ref name x hx => hafter.fields ref name x hx, fun id c d name x hc hd hx => ?_,
    fun ref name x hx => (hat.world.2 ref).continues name x hx⟩
  have hid := hat.scopes.1.scopes id
  rw [hd] at hid
  cases hid with
  | some hid =>
    have hlasts : Lasts ((s.scopes.find? id).elim ∅ (·.locals)) d.locals := hid.stored
    rw [hc] at hlasts
    exact hlasts.continues name x hx

/-- Declares a constant object with a field that is constant and one that is not. -/
def Node.declaringLimits : Node :=
  let node (id : Nat) (kind : NodeKind) : Node := ⟨id, .origin, kind⟩
  node 0 (.program [
    node 1 (.variableDeclaration "limits" true (some .object) (some (node 2 (.objectLiteral [
      ⟨"low", true, none, node 3 (.literal (.int 0))⟩,
      ⟨"top", false, some (.primitive "int"), node 4 (.literal (.int 5))⟩]))))])

/-- Assigns the field that is not constant, and then the one that is. -/
def Node.movingLimits : Node :=
  let node (id : Nat) (kind : NodeKind) : Node := ⟨id, .origin, kind⟩
  node 0 (.program [
    node 1 (.assignment "limits:top" (node 2 (.literal (.int 6)))),
    node 3 (.assignment "limits:low" (node 4 (.literal (.int 1))))])

/-- The state that a program leaves. -/
def Engine.after (engine : Engine) (program : Node) (s : State) : State :=
  (engine.run program s).state?.getD s

theorem Engine.reaches_after {engine : Engine} {program : Node} {s : State}
    (h : (engine.run program s).state?.isSome) : engine.Reaches s (engine.after program s) := by
  obtain ⟨t, ht⟩ := Option.isSome_iff_exists.1 h
  refine .step .refl (.run program) ?_
  rw [Action.perform, Action.state?_discard, after, ht, Option.getD_some]

theorem Engine.Reaches.store_typed_and_constant_movingLimits :
    let s := Engine.bare.after Node.declaringLimits .initial
    let t := Engine.bare.after Node.movingLimits s
    Engine.bare.Reachable s ∧ Engine.bare.Reaches s t ∧
      ((s.heap.fields 0).find? "low").any (fun x => x.constant && x.value.asInt == some 0) = true ∧
      ((t.heap.fields 0).find? "top").any (fun x => x.value.asInt == some 6) = true ∧
      (∀ x, (t.heap.fields 0).find? "top" = some x → x.type.adapt? x.value = some x.value) ∧
      ∀ x, (s.heap.fields 0).find? "low" = some x →
        ∃ y, (t.heap.fields 0).find? "low" = some y ∧ x.Continues y := by
  intro s t
  have hs : Engine.bare.Reachable s := Engine.reaches_after (by decide +kernel)
  have ht : Engine.bare.Reaches s t := Engine.reaches_after (by decide +kernel)
  obtain ⟨-, hfields, -, hlast⟩ := store_typed_and_constant hs ht
  exact ⟨hs, ht, by decide +kernel, by decide +kernel, hfields 0 "top", hlast 0 "low"⟩

end TreeScript
