import TreeScript.Proofs.Eval.Mirror
import TreeScript.Proofs.Following
import TreeScript.Proofs.Scope.Removal
import TreeScript.Proofs.Scope.Unmarked
import TreeScript.Proofs.Variable

/-!
# Trees of paired scopes

Two trees are paired if they have the same scopes in the same places, and any two scopes of one id
agree on all but the `Facets`: functions, markers and counts of pending tasks may be related in some
other way than by equality, and the variables have to satisfy a property.

Each operation on trees takes paired trees to paired trees, and fails on both or on neither. This
asks of the facets that they are `Lawful`: each of the ways in which a scope can change keeps them.
-/

namespace TreeScript

/-- What two scopes of the same id may differ in, and what holds of their variables. -/
structure Facets where
  /-- Scopes are made from this id on. -/
  low : ScopeId
  locals : ScopeId → Table String Variable → Prop
  functions : ScriptFunction → ScriptFunction → Prop
  executed : ScopeId → KeySet Nat → KeySet Nat → Prop
  pending : ScopeId → Nat → Nat → Prop

/-- Every way in which a scope can change keeps the facets. -/
structure Facets.Lawful (F : Facets) : Prop where
  fresh : ∀ {id}, F.low ≤ id → F.locals id ∅ ∧ F.executed id ∅ ∅ ∧ F.pending id 0 0
  insert : ∀ {id l x}, F.locals id l → l.find? x.name = none → x.Admitted →
    F.locals id (l.insert x.name x)
  assign : ∀ {id l name x y value}, F.locals id l → l.find? name = some x →
    x.assign value = .ok y → F.locals id (l.insert name y)
  merge : ∀ {p c l l'} (keep : String → Variable → Bool), F.locals p l → F.locals c l' →
    F.locals p (l.merge (l'.filter keep))
  depth : ∀ {f f'}, F.functions f f' → f'.depth = f.depth
  add : ∀ {id e e'} n, F.executed id e e' → F.executed id (KeySet.add e n) (KeySet.add e' n)
  removeAll : ∀ {id e e'} l, F.executed id e e' →
    F.executed id (KeySet.removeAll e l) (KeySet.removeAll e' l)
  union : ∀ {p c e e' d d'}, c ≠ ScopeTree.root → F.executed p e e' → F.executed c d d' →
    F.executed p (KeySet.union e d) (KeySet.union e' d')

/-- Nothing is asked of variables, and markers are equal. -/
theorem Facets.Lawful.of_eq {F : Facets} (hlocals : ∀ id l, F.locals id l)
    (hexecuted : ∀ {id e e'}, F.executed id e e' ↔ e' = e)
    (hpending : ∀ id, F.low ≤ id → F.pending id 0 0)
    (hdepth : ∀ {f f'}, F.functions f f' → f'.depth = f.depth) : F.Lawful where
  fresh {id} hid := ⟨hlocals id ∅, hexecuted.2 rfl, hpending id hid⟩
  insert _ _ _ := hlocals ..
  assign _ _ _ := hlocals ..
  merge _ _ _ := hlocals ..
  depth := hdepth
  add node h := hexecuted.2 (congrArg (KeySet.add · node) (hexecuted.1 h))
  removeAll nodes h := hexecuted.2 (congrArg (KeySet.removeAll · nodes) (hexecuted.1 h))
  union _ h h' := hexecuted.2 (congrArg₂ KeySet.union (hexecuted.1 h) (hexecuted.1 h'))

/-- Callables of the script that are paired. -/
inductive Callable.Paired (functions : ScriptFunction → ScriptFunction → Prop) :
    Callable → Callable → Prop
  | script {f f' : ScriptFunction} (h : functions f f') : Paired functions (.script f) (.script f')

/-- Implementations whose members are paired. -/
structure Implementation.Paired (functions : ScriptFunction → ScriptFunction → Prop)
    (i i' : Implementation) : Prop where
  name : i'.name = i.name
  depth : i'.depth = i.depth
  members : ∀ name, Option.Rel functions (i.functions.find? name) (i'.functions.find? name)

/-- Scopes that agree on all but the facets. -/
structure Scope.Paired (F : Facets) (id : ScopeId) (s s' : Scope) : Prop where
  parent : s'.parent = s.parent
  depth : s'.depth = s.depth
  children : s'.children = s.children
  marked : s'.marked = s.marked
  pending : F.pending id s.pending s'.pending
  locals : s'.locals = s.locals
  stored : F.locals id s.locals
  functions : ∀ name, Option.Rel (Callable.Paired F.functions) (s.functions.find? name)
    (s'.functions.find? name)
  implementations : ∀ name, Option.Rel (Implementation.Paired F.functions)
    (s.implementations.find? name) (s'.implementations.find? name)
  executed : F.executed id s.executed s'.executed

/-- Trees of paired scopes. -/
structure ScopeTree.Paired (F : Facets) (t t' : ScopeTree) : Prop where
  next : t'.nextId = t.nextId
  low : F.low ≤ t.nextId
  base : ScopeTree.root < t.nextId
  orphan : ∀ s, t.find? ScopeTree.root = some s → s.parent = none
  scopes : ∀ id, Option.Rel (Scope.Paired F id) (t.find? id) (t'.find? id)

/-! ## Tables of paired entries -/

section Options

variable {α : Type} {R : α → α → Prop} {a a' b b' : Option α}

theorem rel_or (ha : Option.Rel R a a') (hb : Option.Rel R b b') :
    Option.Rel R (a.or b) (a'.or b') := by
  cases ha with
  | none => exact hb
  | some ha => exact .some ha

theorem rel_filter {keep keep' : α → Bool} (hb : Option.Rel R b b')
    (h : ∀ x x', R x x' → keep' x' = keep x) :
    Option.Rel R (b.filter keep) (b'.filter keep') := by
  cases hb with
  | none => exact .none
  | @some x x' hx =>
    simp only [Option.filter, h x x' hx]
    split
    · exact .some hx
    · exact .none

end Options

namespace Table

variable {κ α : Type} [Ord κ] [DecidableEq κ] {R : κ → α → α → Prop} {t t' : Table κ α}

theorem contains_of_rel (h : ∀ key, Option.Rel (R key) (t.find? key) (t'.find? key)) (key : κ) :
    t'.contains key = t.contains key := by
  have hkey := h key
  unfold contains
  generalize t.find? key = a at hkey
  generalize t'.find? key = a' at hkey
  cases hkey <;> rfl

/-- Tables with paired entries list them in the same order. -/
theorem forall₂_entries [Std.TransOrd κ] (h : ∀ key, Option.Rel (R key) (t.find? key) (t'.find? key)) :
    List.Forall₂ (fun e e' => e'.1 = e.1 ∧ R e.1 e.2 e'.2) t.entries t'.entries := by
  have hkeys : t'.map (fun _ _ => ()) = t.map fun _ _ => () := by
    refine ext_find? fun key => ?_
    have hkey := h key
    rw [find?_map, find?_map]
    generalize t.find? key = a at hkey
    generalize t'.find? key = a' at hkey
    cases hkey <;> rfl
  have hfst : t'.entries.map (·.1) = t.entries.map (·.1) := by
    have hmap := congrArg (fun u : Table κ Unit => u.entries.map (·.1)) hkeys
    simpa [map, List.map_map, Function.comp_def] using hmap
  refine List.forall₂_iff_get.2 ⟨?_, fun i hi hi' => ?_⟩
  · have := congrArg List.length hfst
    simpa using this.symm
  · have hkey : (t'.entries.get ⟨i, hi'⟩).1 = (t.entries.get ⟨i, hi⟩).1 := by
      have := congrArg (fun l : List κ => l[i]?) hfst
      simpa [hi, hi'] using this
    have hmem : t.find? (t.entries.get ⟨i, hi⟩).1 = some (t.entries.get ⟨i, hi⟩).2 :=
      mem_entries.1 (List.get_mem ..)
    have hmem' : t'.find? (t.entries.get ⟨i, hi⟩).1 = some (t'.entries.get ⟨i, hi'⟩).2 :=
      hkey ▸ mem_entries.1 (List.get_mem ..)
    have hrel := h (t.entries.get ⟨i, hi⟩).1
    rw [hmem, hmem'] at hrel
    cases hrel with
    | some hrel => exact ⟨hkey, hrel⟩

/-- Paired entries are added. -/
theorem rel_insert [Std.TransOrd κ] [Std.LawfulEqOrd κ]
    (h : ∀ key, Option.Rel (R key) (t.find? key) (t'.find? key)) {key : κ} {a a' : α}
    (ha : R key a a') (key' : κ) :
    Option.Rel (R key') ((t.insert key a).find? key') ((t'.insert key a').find? key') := by
  rw [find?_insert, find?_insert]
  split
  · next heq => exact .some (heq ▸ ha)
  · exact h key'

theorem eq_of_rel [Std.TransOrd κ] {R : α → α → Prop} (hR : ∀ a a', R a a' → a' = a)
    (h : ∀ key, Option.Rel R (t.find? key) (t'.find? key)) : t' = t := by
  refine ext_find? fun key => ?_
  have hkey := h key
  generalize t.find? key = a at hkey
  generalize t'.find? key = a' at hkey
  cases hkey with
  | none => rfl
  | some h => rw [hR _ _ h]

/-- Paired entries that are changed into equal ones. -/
theorem map_eq_of_rel [Std.TransOrd κ] {β : Type} {R : α → α → Prop} (g : α → β)
    (hg : ∀ a a', R a a' → g a' = g a) (h : ∀ key, Option.Rel R (t.find? key) (t'.find? key)) :
    (t'.map fun _ a => g a) = t.map fun _ a => g a := by
  refine eq_of_rel (fun _ _ => id) fun key => ?_
  have hkey := h key
  rw [find?_map, find?_map]
  generalize t.find? key = a at hkey
  generalize t'.find? key = a' at hkey
  cases hkey with
  | none => exact .none
  | some h => exact .some (hg _ _ h)

end Table

/-- Paired scopes with equal functions and counts are equal but for their markers. -/
theorem Scope.Paired.eq {F : Facets} {id : ScopeId} {s s' : Scope} (h : Scope.Paired F id s s')
    (hF : ∀ f f', F.functions f f' → f' = f) (hpending : s'.pending = s.pending) :
    s' = { s with executed := s'.executed } := by
  have hcallable (c c' : Callable) (hc : Callable.Paired F.functions c c') : c' = c := by
    obtain ⟨hf⟩ := hc
    rw [hF _ _ hf]
  have himplementation (i i' : Implementation) (hi : Implementation.Paired F.functions i i') :
      i' = i := by
    obtain ⟨_, _, _⟩ := i
    obtain ⟨_, _, _⟩ := i'
    obtain ⟨rfl, rfl, hm⟩ := hi
    exact congrArg _ (Table.eq_of_rel hF hm)
  have hfunctions := Table.eq_of_rel hcallable h.functions
  have himplementations := Table.eq_of_rel himplementation h.implementations
  cases s'
  rw [Scope.mk.injEq]
  exact ⟨h.parent, h.depth, h.locals, hfunctions, himplementations, rfl, h.children, hpending, h.marked⟩

/-- Paired trees with equal functions, markers and counts are equal. -/
theorem ScopeTree.Paired.eq {F : Facets} {t t' : ScopeTree} (h : t.Paired F t')
    (hF : ∀ f f', F.functions f f' → f' = f) (hexecuted : ∀ id e e', F.executed id e e' → e' = e)
    (hpending : ∀ id a b, F.pending id a b → b = a) : t' = t := by
  refine ScopeTree.ext_find? h.next fun id => ?_
  have hid := h.scopes id
  generalize t.find? id = a at hid
  generalize t'.find? id = a' at hid
  cases hid with
  | none => rfl
  | some hs => rw [hs.eq hF (hpending _ _ _ hs.pending), hexecuted _ _ _ hs.executed]

/-- A scope takes over what a paired child leaves. -/
theorem Scope.Paired.absorb {F : Facets} (hF : F.Lawful) {p c : ScopeId} (hc : c ≠ ScopeTree.root)
    {s s' child child' : Scope} (h : Scope.Paired F p s s') (hchild : Scope.Paired F c child child') :
    Scope.Paired F p (s.absorb c child) (s'.absorb c child') where
  parent := h.parent
  depth := h.depth
  children := congrArg (Table.erase · c) h.children
  marked := h.marked
  pending := h.pending
  locals := by simp only [Scope.absorb, h.locals, hchild.locals, h.depth]
  stored := hF.merge _ h.stored hchild.stored
  functions name := by
    simp only [Scope.absorb, Table.find?_merge, Table.find?_filter]
    refine rel_or (h.functions name) (rel_filter (hchild.functions name) fun x x' hx => ?_)
    obtain ⟨hf⟩ := hx
    exact decide_eq_decide.2 (by rw [h.depth, Scope.callableDepth, hF.depth hf]; rfl)
  implementations name := by
    simp only [Scope.absorb, Table.find?_merge, Table.find?_filter]
    refine rel_or (h.implementations name) (rel_filter (hchild.implementations name) fun x x' hx => ?_)
    simp only [hx.depth, h.depth]
  executed := hF.union hc h.executed hchild.executed

namespace ScopeTree

variable {F : Facets} {t t' : ScopeTree} {id : ScopeId}

/-- The nearest variable is one of the scope it was found in. -/
theorem find?_of_nearestVariable? {name : String} {holder : ScopeId} {x : Variable}
    (h : t.nearestVariable? id name false = some (holder, x)) :
    ∃ s, t.find? holder = some s ∧ s.locals.find? name = some x := by
  obtain ⟨e, hmem, he⟩ := List.exists_of_findSome?_eq_some h
  obtain ⟨i, s⟩ := e
  obtain ⟨y, hy, heq⟩ := Option.map_eq_some_iff.1 he
  cases heq
  have hentry : (holder, s) ∈ t.scopes.entries := List.mem_reverse.1 (mem_lineage hmem)
  exact ⟨s, Table.mem_entries.1 hentry, hy⟩

/-- Forgetting jumps changes the markers, also where there are none. -/
theorem clearExecuted_eq (t : ScopeTree) (id : ScopeId) (n : Node) :
    t.clearExecuted id n = (do
      let _ ← t.get id
      return t.modify id fun s =>
        { s with executed := KeySet.removeAll s.executed (n.descendants.map (·.id)) }) := by
  unfold clearExecuted
  cases hs : t.get id with
  | error e => rfl
  | ok s =>
    simp only [bind, Except.bind]
    split
    · next hempty =>
      refine congrArg Except.ok (ext_find? rfl fun x => ?_)
      rw [find?_modify]
      split
      · next heq =>
        subst heq
        have hsame : KeySet.removeAll s.executed (n.descendants.map (·.id)) = s.executed := by
          refine KeySet.ext_contains fun key => ?_
          rw [KeySet.contains_removeAll]
          exact ⟨And.left, fun h => absurd h (Table.not_contains_of_isEmpty hempty key)⟩
        rw [find?_of_get hs, Option.map_some, hsame]
      · rfl
    · rfl

namespace Paired

/-! ## Ways through the tree -/

theorem get (h : t.Paired F t') (id : ScopeId) :
    Results (Scope.Paired F id) Eq (t.get id) (t'.get id) := by
  have hid := h.scopes id
  unfold ScopeTree.get
  generalize t.find? id = s at hid
  generalize t'.find? id = s' at hid
  cases hid with
  | none => exact .error rfl
  | some hs => exact .ok hs

/-- A scope and its ancestors are paired one by one. -/
theorem ancestry (h : t.Paired F t') (id : ScopeId) :
    List.Forall₂ (fun e e' => e'.1 = e.1 ∧ Scope.Paired F e.1 e.2 e'.2) (t.ancestry id)
      (t'.ancestry id) := by
  have hentries := List.forall₂_reverse_iff.2 (Table.forall₂_entries h.scopes)
  unfold ScopeTree.ancestry
  generalize t.scopes.entries.reverse = l at hentries
  generalize t'.scopes.entries.reverse = l' at hentries
  induction hentries generalizing id with
  | nil => exact .nil
  | @cons e e' l l' he _ ih =>
    obtain ⟨i, s⟩ := e
    obtain ⟨i', s'⟩ := e'
    obtain ⟨rfl, hs⟩ : i' = i ∧ Scope.Paired F i s s' := he
    simp only [lineage]
    split
    · refine .cons ⟨rfl, hs⟩ ?_
      rw [hs.parent]
      cases s.parent with
      | none => exact .nil
      | some p => exact ih p
    · exact ih id

theorem chain (h : t.Paired F t') (id : ScopeId) : t'.chain id = t.chain id := by
  have hancestry := h.ancestry id
  unfold ScopeTree.chain
  generalize t.ancestry id = l at hancestry
  generalize t'.ancestry id = l' at hancestry
  induction hancestry with
  | nil => rfl
  | cons he _ ih => rw [List.map_cons, List.map_cons, he.1, ih]

/-- The nearest binding, where paired scopes bind related things. -/
theorem nearest? {α : Type} {R : α → α → Prop} (binding? : Scope → Option α) (h : t.Paired F t')
    (hb : ∀ id s s', Scope.Paired F id s s' → Option.Rel R (binding? s) (binding? s'))
    (id : ScopeId) :
    Option.Rel (fun b b' => b'.1 = b.1 ∧ R b.2 b'.2)
      (ScopeTree.nearest? binding? (t.searched id false))
      (ScopeTree.nearest? binding? (t'.searched id false)) := by
  have hancestry := h.ancestry id
  show Option.Rel _ (ScopeTree.nearest? binding? (t.ancestry id))
    (ScopeTree.nearest? binding? (t'.ancestry id))
  generalize t.ancestry id = l at hancestry
  generalize t'.ancestry id = l' at hancestry
  unfold ScopeTree.nearest?
  induction hancestry with
  | nil => exact .none
  | @cons e e' l l' he _ ih =>
    obtain ⟨i, s⟩ := e
    obtain ⟨i', s'⟩ := e'
    obtain ⟨rfl, hs⟩ : i' = i ∧ Scope.Paired F i s s' := he
    have hbinding := hb i' s s' hs
    rw [List.findSome?_cons, List.findSome?_cons]
    dsimp only
    generalize binding? s = b at hbinding
    generalize binding? s' = b' at hbinding
    cases hbinding with
    | none => exact ih
    | some hr => exact .some ⟨rfl, hr⟩

theorem nearestVariable? (h : t.Paired F t') (id : ScopeId) (name : String) :
    t'.nearestVariable? id name false = t.nearestVariable? id name false := by
  have hlocals (id : ScopeId) (s s' : Scope) (hs : Scope.Paired F id s s') :
      Option.Rel Eq (s.locals.find? name) (s'.locals.find? name) := by
    rw [hs.locals]
    cases s.locals.find? name with
    | none => exact .none
    | some x => exact .some rfl
  have hnearest := h.nearest? (fun s => s.locals.find? name) hlocals id
  unfold ScopeTree.nearestVariable?
  generalize ScopeTree.nearest? _ (t.searched id false) = b at hnearest ⊢
  generalize ScopeTree.nearest? _ (t'.searched id false) = b' at hnearest ⊢
  cases hnearest with
  | none => rfl
  | some hb => rw [Prod.ext hb.1 hb.2.symm]

theorem findVariable (h : t.Paired F t') (id : ScopeId) (name : String) :
    t'.findVariable id name false = t.findVariable id name false := by
  have hget := h.get id
  unfold ScopeTree.findVariable
  rw [h.nearestVariable? id name]
  generalize t.get id = r at hget
  generalize t'.get id = r' at hget
  cases hget with
  | ok hs => rfl
  | error he => rw [he]

theorem depth (h : t.Paired F t') (id : ScopeId) :
    (t'.get id).map (·.depth) = (t.get id).map (·.depth) := by
  have hget := h.get id
  generalize t.get id = r at hget
  generalize t'.get id = r' at hget
  cases hget with
  | ok hs => exact congrArg Except.ok hs.depth
  | error he => rw [he]

theorem callable? (h : t.Paired F t') (id : ScopeId) (name : String) :
    Option.Rel (Callable.Paired F.functions) (t.callable? id name false)
      (t'.callable? id name false) := by
  have hscope (id : ScopeId) (s s' : Scope) (hs : Scope.Paired F id s s') :
      Option.Rel (Callable.Paired F.functions) (s.callable? name (splitMember? name))
        (s'.callable? name (splitMember? name)) := by
    have hfunction := hs.functions name
    unfold Scope.callable?
    generalize s.functions.find? name = c at hfunction
    generalize s'.functions.find? name = c' at hfunction
    cases hfunction with
    | some hc => exact .some hc
    | none =>
      cases splitMember? name with
      | none => exact .none
      | some member =>
        obtain ⟨owner, method⟩ := member
        have himplementation := hs.implementations owner
        simp only [Option.none_or, bind, Option.bind]
        generalize s.implementations.find? owner = i at himplementation
        generalize s'.implementations.find? owner = i' at himplementation
        cases himplementation with
        | none => exact .none
        | @some i i' hi =>
          have hmember := hi.members method
          dsimp only
          generalize i.functions.find? method = f at hmember
          generalize i'.functions.find? method = f' at hmember
          cases hmember with
          | none => exact .none
          | some hf => exact .some (.script hf)
  have hnearest := h.nearest? (fun s => s.callable? name (splitMember? name)) hscope id
  unfold ScopeTree.callable?
  dsimp only
  generalize ScopeTree.nearest? _ (t.searched id false) = b at hnearest ⊢
  generalize ScopeTree.nearest? _ (t'.searched id false) = b' at hnearest ⊢
  cases hnearest with
  | none => exact .none
  | some hb => exact .some hb.2

/-! ## Changes of a scope -/

theorem modify {g g' : Scope → Scope} (h : t.Paired F t')
    (hg : ∀ s s', t.find? id = some s → Scope.Paired F id s s' → Scope.Paired F id (g s) (g' s'))
    (hparent : ∀ s, (g s).parent = s.parent) :
    (t.modify id g).Paired F (t'.modify id g') where
  next := h.next
  low := h.low
  base := h.base
  orphan s hs := by
    rw [find?_modify] at hs
    split at hs
    · obtain ⟨s, hs', rfl⟩ := Option.map_eq_some_iff.1 hs
      rw [hparent]
      exact h.orphan s hs'
    · exact h.orphan s hs
  scopes x := by
    have hx := h.scopes x
    rw [find?_modify, find?_modify]
    split
    · next heq =>
      subst heq
      cases hs : t.find? id with
      | none =>
        rw [hs] at hx
        generalize t'.find? id = s' at hx
        cases hx
        exact .none
      | some s =>
        rw [hs] at hx
        generalize t'.find? id = s' at hx
        cases hx with
        | some hx => exact .some (hg s _ hs hx)
    · exact hx

/-- A change that is refused in a scope for a reason that paired scopes share. -/
theorem change (taken : Scope → Bool) (failure : Error) {g g' : Scope → Scope}
    (h : t.Paired F t') (htaken : ∀ s s', Scope.Paired F id s s' → taken s' = taken s)
    (hg : ∀ s s', taken s = false → Scope.Paired F id s s' → Scope.Paired F id (g s) (g' s'))
    (hparent : ∀ s, (g s).parent = s.parent) :
    Results (Paired F) Eq
      (do
        let s ← t.get id
        if taken s then Except.error failure else return t.modify id g)
      (do
        let s ← t'.get id
        if taken s then Except.error failure else return t'.modify id g') := by
  refine (h.get id).bind fun s s' hs hp => ?_
  rw [htaken s s' hp]
  split
  · exact .error rfl
  · next hfree =>
    refine .ok (h.modify (fun q q' hq hqq => ?_) hparent)
    rw [find?_of_get hs] at hq
    cases hq
    exact hg s q' (by simpa using hfree) hqq

/-- A change of markers. -/
theorem remark {f : KeySet Nat → KeySet Nat} (h : t.Paired F t')
    (hf : ∀ e e', F.executed id e e' → F.executed id (f e) (f e')) :
    Results (Paired F) Eq
      (do
        let _ ← t.get id
        return t.modify id fun s => { s with executed := f s.executed })
      (do
        let _ ← t'.get id
        return t'.modify id fun s => { s with executed := f s.executed }) := by
  refine h.change (fun _ => false) (.of .callStackEmpty) (fun _ _ _ => rfl)
    (fun s s' _ hs => ?_) fun _ => rfl
  exact { hs with executed := hf _ _ hs.executed }

theorem defineFunction (h : t.Paired F t') (id : ScopeId) {f : ScriptFunction}
    (hf : F.functions f f) :
    Results (Paired F) Eq (t.defineFunction id f) (t'.defineFunction id f) := by
  unfold ScopeTree.defineFunction
  refine h.change _ _ (fun s s' hs => Table.contains_of_rel hs.functions _) (fun s s' _ hs => ?_)
    fun _ => rfl
  exact { hs with functions := Table.rel_insert hs.functions (.script hf) }

theorem defineImplementation (h : t.Paired F t') (id : ScopeId) {i : Implementation}
    (hi : ∀ name f, i.functions.find? name = some f → F.functions f f) :
    Results (Paired F) Eq (t.defineImplementation id i) (t'.defineImplementation id i) := by
  have hself : Implementation.Paired F.functions i i := by
    refine ⟨rfl, rfl, fun name => ?_⟩
    cases hf : i.functions.find? name with
    | none => exact .none
    | some f => exact .some (hi name f hf)
  unfold ScopeTree.defineImplementation
  refine h.change _ _ (fun s s' hs => Table.contains_of_rel hs.implementations _) (fun s s' _ hs => ?_)
    fun _ => rfl
  exact { hs with implementations := Table.rel_insert hs.implementations hself }

variable (hF : F.Lawful)

include hF

theorem defineVariable (h : t.Paired F t') (id : ScopeId) {x : Variable} (hx : x.Admitted) :
    Results (Paired F) Eq (t.defineVariable id x) (t'.defineVariable id x) := by
  unfold ScopeTree.defineVariable
  refine h.change _ _ (fun s s' hs => by rw [hs.locals]) (fun s s' hfree hs => ?_) fun _ => rfl
  exact { hs with
    locals := by rw [hs.locals]
    stored := hF.insert hs.stored (Table.contains_eq_false.1 hfree) hx }

theorem assignVariable (h : t.Paired F t') (id : ScopeId) (name : String) (value : Value) :
    Results (Paired F) Eq (t.assignVariable id name value) (t'.assignVariable id name value) := by
  refine (h.get id).bind fun _ _ _ _ => ?_
  rw [h.nearestVariable? id name]
  cases hnearest : t.nearestVariable? id name false with
  | none => exact .error rfl
  | some found =>
    obtain ⟨holder, x⟩ := found
    dsimp only
    cases hassign : x.assign value with
    | error e => exact .error rfl
    | ok y =>
      refine .ok (h.modify (fun s s' hs hp => ?_) fun _ => rfl)
      obtain ⟨s₀, hs₀, hx⟩ := find?_of_nearestVariable? hnearest
      cases hs.symm.trans hs₀
      exact { hp with
        locals := by rw [hp.locals]
        stored := hF.assign hp.stored hx hassign }

theorem markExecuted (h : t.Paired F t') (id : ScopeId) (node : Nat) :
    Results (Paired F) Eq (t.markExecuted id node) (t'.markExecuted id node) :=
  remark h fun _ _ => hF.add node

theorem clearExecuted (h : t.Paired F t') (id : ScopeId) {n n' : Node}
    (hn : n'.descendants.map (·.id) = n.descendants.map (·.id)) :
    Results (Paired F) Eq (t.clearExecuted id n) (t'.clearExecuted id n') := by
  rw [clearExecuted_eq, clearExecuted_eq, hn]
  exact remark h fun _ _ => hF.removeAll _

/-! ## Making and removing scopes -/

theorem create (h : t.Paired F t') (parent : ScopeId) :
    Results (fun r r' => r.1 = r'.1 ∧ r.2.Paired F r'.2) Eq (t.create parent)
      (t'.create parent) := by
  refine (h.get parent).bind fun s s' _ hs => ?_
  rw [h.next, hs.depth]
  obtain ⟨hlocals, hexecuted, hpending⟩ := hF.fresh h.low
  have hfresh : Scope.Paired F t.nextId (.fresh (some parent) (s.depth + 1))
      (.fresh (some parent) (s.depth + 1)) :=
    ⟨rfl, rfl, rfl, rfl, hpending, rfl, hlocals, fun _ => .none, fun _ => .none, hexecuted⟩
  have hmade : Paired F
      ⟨t.scopes.insert t.nextId (.fresh (some parent) (s.depth + 1)), t.nextId + 1⟩
      ⟨t'.scopes.insert t.nextId (.fresh (some parent) (s.depth + 1)), t.nextId + 1⟩ := by
    refine ⟨rfl, Nat.le_succ_of_le h.low, Nat.lt_succ_of_lt h.base, fun q hq => ?_, fun x =>
      Table.rel_insert h.scopes hfresh x⟩
    rw [ScopeTree.find?, Table.find?_insert, if_neg (Nat.ne_of_lt h.base)] at hq
    exact h.orphan q hq
  exact .ok ⟨rfl, hmade.modify (fun s s' _ hs => { hs with children := by rw [hs.children] })
    fun _ => rfl⟩

theorem detach {s s' : Scope} (h : t.Paired F t') (hs : t.find? id = some s)
    (hp : Scope.Paired F id s s') : (t.detach id s).Paired F (t'.detach id s') := by
  have hrest : Paired F { t with scopes := t.scopes.erase id }
      { t' with scopes := t'.scopes.erase id } := by
    refine ⟨h.next, h.low, h.base, fun q hq => ?_, fun x => ?_⟩
    · rw [ScopeTree.find?, Table.find?_erase] at hq
      split at hq
      · cases hq
      · exact h.orphan q hq
    · rw [ScopeTree.find?, ScopeTree.find?, Table.find?_erase, Table.find?_erase]
      split
      · exact .none
      · exact h.scopes x
  unfold ScopeTree.detach
  rw [hp.parent]
  cases hparent : s.parent with
  | none => exact hrest
  | some p =>
    have hroot : id ≠ root := by
      rintro rfl
      rw [h.orphan s hs] at hparent
      cases hparent
    exact hrest.modify (fun q q' _ hq => hq.absorb hF hroot hp) fun _ => rfl

theorem removeWithin (h : t.Paired F t') (limit : Nat) (id : ScopeId) :
    Results (Paired F) Eq (removeWithin limit id t) (removeWithin limit id t') := by
  induction limit generalizing id t t' with
  | zero => exact .error rfl
  | succ limit ih =>
    have hchildren (l : List ScopeId) {t t' : ScopeTree} (h : t.Paired F t') :
        Results (Paired F) Eq (l.foldlM (fun t child => ScopeTree.removeWithin limit child t) t)
          (l.foldlM (fun t child => ScopeTree.removeWithin limit child t) t') := by
      induction l generalizing t t' with
      | nil => exact .ok h
      | cons c l ihl =>
        rw [List.foldlM_cons, List.foldlM_cons]
        exact (ih h c).bind fun _ _ _ hc => ihl hc
    refine (h.get id).bind fun s s' _ hs => ?_
    rw [hs.children]
    refine (hchildren s.children.keys h).bind fun u u' _ hu => ?_
    exact (hu.get id).bind fun q q' hq hp => .ok (hu.detach hF (find?_of_get hq) hp)

theorem mark {s s' : Scope} (h : t.Paired F t') (hs : t.find? id = some s)
    (hp : Scope.Paired F id s s') : (t.mark id s).Paired F (t'.mark id s') := by
  have hmarked : Paired F (t.modify id fun s => { s with marked := true })
      (t'.modify id fun s => { s with marked := true }) :=
    h.modify (fun _ _ _ hq => { hq with marked := rfl }) fun _ => rfl
  unfold ScopeTree.mark
  rw [hp.parent]
  cases hparent : s.parent with
  | none => exact hmarked
  | some p =>
    have hroot : id ≠ root := by
      rintro rfl
      rw [h.orphan s hs] at hparent
      cases hparent
    exact hmarked.modify (fun q q' _ hq =>
      { hq with executed := hF.union hroot hq.executed hp.executed }) fun _ => rfl

/-! ## Tasks -/

section Counted

variable (hP : ∀ id a b, F.pending id a b ↔ b = a)

include hP

omit hF in
theorem hasPending (h : t.Paired F t') (id : ScopeId) : t'.hasPending id = t.hasPending id := by
  have hwithin (limit : Nat) (id : ScopeId) :
      t'.hasPendingWithin limit id = t.hasPendingWithin limit id := by
    induction limit generalizing id with
    | zero => rfl
    | succ limit ih =>
      have hid := h.scopes id
      unfold hasPendingWithin
      generalize t.find? id = s at hid
      generalize t'.find? id = s' at hid
      cases hid with
      | none => rfl
      | some hs =>
        dsimp only
        rw [(hP _ _ _).1 hs.pending, hs.children, funext ih]
  unfold ScopeTree.hasPending
  rw [h.next, hwithin]

theorem release (h : t.Paired F t') (id : ScopeId) :
    Results (fun r r' => r.1 = r'.1 ∧ r.2.Paired F r'.2) Eq (t.release id) (t'.release id) := by
  unfold ScopeTree.release
  split
  · exact .error rfl
  · have hid := h.scopes id
    cases hs : t.find? id with
    | none =>
      rw [hs] at hid
      generalize t'.find? id = s' at hid
      cases hid
      exact .error rfl
    | some s =>
      rw [hs] at hid
      generalize t'.find? id = s' at hid
      cases hid with
      | some hp =>
        dsimp only
        rw [h.hasPending hP]
        split
        · exact .ok ⟨rfl, h.mark hF hs hp⟩
        · have hremove := h.removeWithin hF (t.nextId - id) id
          unfold ScopeTree.remove
          rw [h.next]
          generalize ScopeTree.removeWithin _ id t = r at hremove
          generalize ScopeTree.removeWithin _ id t' = r' at hremove
          cases hremove with
          | ok hr => exact .ok ⟨rfl, hr⟩
          | error he => exact .error he

omit hF in
theorem beginTask (h : t.Paired F t') (owner : ScopeId) :
    Results (Paired F) Eq (t.beginTask owner) (t'.beginTask owner) := by
  refine h.change (fun _ => false) (.of .callStackEmpty) (fun _ _ _ => rfl)
    (fun s s' _ hs => ?_) fun _ => rfl
  exact { hs with pending := (hP ..).2 (by rw [(hP ..).1 hs.pending]) }

theorem endTask (h : t.Paired F t') (owner : ScopeId) :
    (t.endTask owner).Paired F (t'.endTask owner) := by
  have hcounted : (t.discount owner).Paired F (t'.discount owner) :=
    h.modify (fun s s' _ hs => { hs with pending := (hP ..).2 (by rw [(hP ..).1 hs.pending]) })
      fun _ => rfl
  have hready {t t' : ScopeTree} (h : t.Paired F t') : t'.ready owner = t.ready owner := by
    unfold ready
    rw [h.chain]
    refine List.filter_congr fun i _ => ?_
    have hi := h.scopes i
    rw [h.hasPending hP]
    generalize t.find? i = s at hi
    generalize t'.find? i = s' at hi
    cases hi with
    | none => rfl
    | some hs => rw [Option.any_some, Option.any_some, hs.marked]
  have hdiscard {t t' : ScopeTree} (h : t.Paired F t') (id : ScopeId) :
      (t.discard id).Paired F (t'.discard id) := by
    have hremove := h.removeWithin hF (t.nextId - id) id
    unfold discard ScopeTree.remove
    rw [h.next]
    generalize ScopeTree.removeWithin _ id t = r at hremove
    generalize ScopeTree.removeWithin _ id t' = r' at hremove
    cases hremove with
    | ok hr => exact hr
    | error _ => exact h
  show Paired F (((t.discount owner).ready owner).foldl discard (t.discount owner))
    (((t'.discount owner).ready owner).foldl discard (t'.discount owner))
  rw [hready hcounted]
  generalize (t.discount owner).ready owner = l
  generalize t.discount owner = u at hcounted
  generalize t'.discount owner = u' at hcounted
  induction l generalizing u u' with
  | nil => exact hcounted
  | cons i l ih => exact ih _ _ (hdiscard hcounted i)

end Counted

end Paired

end ScopeTree

end TreeScript
