import TreeScript.Proofs.Scope.Edit
import TreeScript.Proofs.Scope.Teardown

/-!
# Bindings at the depth of their scope

A scope that is torn down leaves to its parent what it declared for no deeper scope than the parent.
In a `Leveled` tree each binding is declared for the depth of the scope that holds it, and a scope is
one deeper than its parent, so the parent takes over nothing.

* `Edit.leveled`, `All.create_leveled`: declarations and new scopes keep the scopes leveled.
* `Retains`: the scopes that are left bind what they did before.
* `Leveled.remove`, `Leveled.release`, `Leveled.endTask`: whatever is torn down in a leveled tree, the
  scopes that are left retain their bindings, and so the tree stays leveled (`Leveled.of_retains`).
* `KeepsNames`: old scopes bind the names that they did, since declarations are made in new ones.
  `KeepsNames.namesAbove`: so do a scope and its ancestors, as long as the scope is there.
-/

namespace TreeScript

/-! ## Scopes -/

namespace Scope

/-- Each binding is declared for the depth of the scope. -/
structure Leveled (s : Scope) : Prop where
  locals : ∀ e ∈ s.locals.entries, e.2.depth = s.depth
  functions : ∀ e ∈ s.functions.entries, s.callableDepth e.2 = s.depth
  implementations : ∀ e ∈ s.implementations.entries, e.2.depth = s.depth
  members : ∀ e ∈ s.implementations.entries, ∀ m ∈ e.2.functions.entries, m.2.depth = s.depth

instance (s : Scope) : Decidable s.Leveled :=
  decidable_of_iff
    ((∀ e ∈ s.locals.entries, e.2.depth = s.depth) ∧
      (∀ e ∈ s.functions.entries, s.callableDepth e.2 = s.depth) ∧
      (∀ e ∈ s.implementations.entries, e.2.depth = s.depth) ∧
      ∀ e ∈ s.implementations.entries, ∀ m ∈ e.2.functions.entries, m.2.depth = s.depth)
    ⟨fun ⟨h₁, h₂, h₃, h₄⟩ => ⟨h₁, h₂, h₃, h₄⟩, fun ⟨h₁, h₂, h₃, h₄⟩ => ⟨h₁, h₂, h₃, h₄⟩⟩

/-- What a scope binds. -/
structure Bindings where
  locals : Table String Variable
  functions : Table String Callable
  implementations : Table String Implementation

/-- The bindings of a scope. -/
def bindings (s : Scope) : Bindings := ⟨s.locals, s.functions, s.implementations⟩

/-- The names of variables, functions and implementations. -/
structure Names where
  locals : KeySet String
  functions : KeySet String
  implementations : KeySet String
deriving DecidableEq

/-- The names that are bound. -/
def Bindings.names (b : Bindings) : Names :=
  ⟨b.locals.keySet, b.functions.keySet, b.implementations.keySet⟩

/-- The names that a scope binds. -/
def names (s : Scope) : Names := s.bindings.names

/-- The scope `s'` is at the place of `s` and binds what `s` binds. -/
structure Retains (s s' : Scope) : Prop where
  parent : s'.parent = s.parent
  depth : s'.depth = s.depth
  bindings : s'.bindings = s.bindings

variable {s s' s'' child : Scope}

theorem Retains.refl (s : Scope) : s.Retains s := ⟨rfl, rfl, rfl⟩

theorem Retains.trans (h : s.Retains s') (h' : s'.Retains s'') : s.Retains s'' :=
  ⟨h'.parent.trans h.parent, h'.depth.trans h.depth, h'.bindings.trans h.bindings⟩

theorem leveled_fresh (parent : Option ScopeId) (depth : Nat) : (fresh parent depth).Leveled := by
  refine ⟨fun e he => ?_, fun e he => ?_, fun e he => ?_, fun e he => ?_⟩ <;> cases he

namespace Leveled

theorem of_retains (h : s.Leveled) (hs : s.Retains s') : s'.Leveled := by
  obtain ⟨-, hdepth, hbindings⟩ := hs
  cases s
  cases s'
  cases hdepth
  cases hbindings
  exact ⟨h.locals, h.functions, h.implementations, h.members⟩

theorem insert_local (h : s.Leveled) {v : Variable} (hv : v.depth = s.depth) (name : String) :
    ({ s with locals := s.locals.insert name v } : Scope).Leveled := by
  refine ⟨fun e he => ?_, h.functions, h.implementations, h.members⟩
  rcases Table.mem_put he with rfl | he
  · exact hv
  · exact h.locals e he

theorem insert_function (h : s.Leveled) {f : ScriptFunction} (hf : f.depth = s.depth)
    (name : String) :
    ({ s with functions := s.functions.insert name (.script f) } : Scope).Leveled := by
  refine ⟨h.locals, fun e he => ?_, h.implementations, h.members⟩
  rcases Table.mem_put he with rfl | he
  · exact hf
  · exact h.functions e he

theorem insert_implementation (h : s.Leveled) {i : Implementation} (hi : i.depth = s.depth)
    (hmembers : ∀ m ∈ i.functions.entries, m.2.depth = s.depth) (name : String) :
    ({ s with implementations := s.implementations.insert name i } : Scope).Leveled := by
  refine ⟨h.locals, h.functions, fun e he => ?_, fun e he => ?_⟩
  · rcases Table.mem_put he with rfl | he
    · exact hi
    · exact h.implementations e he
  · rcases Table.mem_put he with rfl | he
    · exact hmembers
    · exact h.members e he

/-- **Nothing is moved.** A scope takes over no binding of a leveled scope that is deeper. -/
theorem retains_absorb (h : child.Leveled) (hdepth : s.depth < child.depth) (id : ScopeId) :
    s.Retains (s.absorb id child) := by
  have hdeeper {n : Nat} (hn : n = child.depth) : decide (n ≤ s.depth) = false :=
    decide_eq_false (Nat.not_le_of_lt (hn ▸ hdepth))
  refine ⟨rfl, rfl, ?_⟩
  unfold Scope.bindings Scope.absorb
  rw [Table.merge_filter_eq_self _ fun e he => hdeeper (h.locals e he),
    Table.merge_filter_eq_self _ fun e he => hdeeper (h.functions e he),
    Table.merge_filter_eq_self _ fun e he => hdeeper (h.implementations e he)]

end Leveled

end Scope

/-! ## Trees -/

namespace ScopeTree

/-- All bindings are declared for the depth of their scope, and a scope is one deeper than its
parent. -/
structure Leveled (t : ScopeTree) : Prop where
  scopes : t.All Scope.Leveled
  nested : ∀ x c p q, t.find? x = some c → c.parent = some p → t.find? p = some q →
    c.depth = q.depth + 1

instance (t : ScopeTree) : Decidable t.Leveled :=
  decidable_of_iff
    (∀ e ∈ t.scopes.entries, e.2.Leveled ∧
      ∀ p ∈ e.2.parent, ∀ q ∈ t.find? p, e.2.depth = q.depth + 1)
    ⟨fun h => ⟨fun x c hc => (h (x, c) (Table.mem_entries.2 hc)).1,
        fun x c p q hc hp hq => (h (x, c) (Table.mem_entries.2 hc)).2 p hp q hq⟩,
      fun h e he => ⟨h.scopes e.1 e.2 (Table.mem_entries.1 he),
        fun p hp q hq => h.nested e.1 e.2 p q (Table.mem_entries.1 he) hp hq⟩⟩

/-- No scope is new, and each one binds what it did before. -/
structure Retains (t u : ScopeTree) : Prop where
  next : u.nextId = t.nextId
  kept : ∀ x c', u.find? x = some c' → ∃ c, t.find? x = some c ∧ c.Retains c'

variable {t u v : ScopeTree} {id : ScopeId}

namespace Retains

theorem refl (t : ScopeTree) : t.Retains t := ⟨rfl, fun _ c hc => ⟨c, hc, .refl c⟩⟩

theorem trans (h : t.Retains u) (h' : u.Retains v) : t.Retains v := by
  refine ⟨h'.next.trans h.next, fun x c'' hc'' => ?_⟩
  obtain ⟨c', hc', hr'⟩ := h'.kept x c'' hc''
  obtain ⟨c, hc, hr⟩ := h.kept x c' hc'
  exact ⟨c, hc, hr.trans hr'⟩

theorem modify (t : ScopeTree) (id : ScopeId) {f : Scope → Scope}
    (hf : ∀ c, Scope.Retains c (f c)) :
    t.Retains (t.modify id f) := by
  refine ⟨rfl, fun x c' hc' => ?_⟩
  obtain ⟨c, hc, rfl | rfl⟩ := find?_of_modify hc'
  · exact ⟨c, hc, hf c⟩
  · exact ⟨c', hc, .refl c'⟩

theorem mark (t : ScopeTree) (id : ScopeId) (s : Scope) : t.Retains (t.mark id s) := by
  have hself : t.Retains (t.modify id fun c => { c with marked := true }) :=
    modify t id fun _ => ⟨rfl, rfl, rfl⟩
  unfold ScopeTree.mark
  split
  · exact hself
  · exact hself.trans (modify _ _ fun _ => ⟨rfl, rfl, rfl⟩)

theorem beginTask (h : t.beginTask id = .ok u) : t.Retains u := by
  obtain ⟨c, -, h⟩ := find?_of_get_bind h
  cases h
  exact modify t id fun _ => ⟨rfl, rfl, rfl⟩

end Retains

theorem WellFormed.leveled (wf : t.WellFormed) (h : t.All Scope.Leveled) : t.Leveled := by
  refine ⟨h, fun x c p q hc hp hq => ?_⟩
  obtain ⟨q', hq', -, hdepth, -⟩ := wf.find?_parent hc hp
  rw [hq] at hq'
  cases hq'
  exact hdepth

theorem leveled_initial : initial.Leveled :=
  wellFormed_initial.leveled fun x c hc => by
    rw [eq_fresh_of_find?_initial hc]
    exact Scope.leveled_fresh none 0

namespace Leveled

theorem of_retains (h : t.Leveled) (hr : t.Retains u) : u.Leveled := by
  refine ⟨fun x c' hc' => ?_, fun x c' p q' hc' hp hq' => ?_⟩
  · obtain ⟨c, hc, hcr⟩ := hr.kept x c' hc'
    exact (h.scopes x c hc).of_retains hcr
  · obtain ⟨c, hc, hcr⟩ := hr.kept x c' hc'
    obtain ⟨q, hq, hqr⟩ := hr.kept p q' hq'
    rw [hcr.depth, hqr.depth]
    exact h.nested x c p q hc (hcr.parent ▸ hp) hq

/-! ## Tearing down -/

theorem detach {s : Scope} (h : t.Leveled) (hs : t.find? id = some s) :
    t.Retains (t.detach id s) := by
  have herase : t.Retains { t with scopes := t.scopes.erase id } := by
    refine ⟨rfl, fun x c hc => ⟨c, ?_, .refl c⟩⟩
    have hc : (t.scopes.erase id).find? x = some c := hc
    rw [Table.find?_erase] at hc
    split at hc
    · cases hc
    · exact hc
  cases hp : s.parent with
  | none =>
    unfold ScopeTree.detach
    rw [hp]
    exact herase
  | some p =>
    refine ⟨by unfold ScopeTree.detach; rw [hp]; rfl, fun x c' hc' => ?_⟩
    rw [find?_detach hp] at hc'
    split at hc'
    · next hx =>
      obtain ⟨c, hc, rfl⟩ := Option.map_eq_some_iff.1 hc'
      split at hc
      · cases hc
      · have hdepth := h.nested id s p c hs hp (hx ▸ hc)
        exact ⟨c, hc, (h.scopes id s hs).retains_absorb (by omega) id⟩
    · split at hc'
      · cases hc'
      · exact ⟨c', hc', .refl c'⟩

/-- What holds of one scope that is detached holds of all that are torn down. -/
theorem detach_within (v : ScopeTree) (id : ScopeId) (s : Scope) (h : v.Leveled ∧ t.Retains v)
    (hs : v.find? id = some s) : (v.detach id s).Leveled ∧ t.Retains (v.detach id s) := by
  have hr := h.1.detach hs
  exact ⟨h.1.of_retains hr, h.2.trans hr⟩

theorem remove (h : t.Leveled) (hu : t.remove id = .ok u) : t.Retains u :=
  (of_removeWithin detach_within ⟨h, .refl t⟩ hu).2

theorem release {r : Release} (h : t.Leveled) (hu : t.release id = .ok (r, u)) : t.Retains u :=
  (of_release detach_within
    (fun v id s h _ => ⟨h.1.of_retains (.mark v id s), h.2.trans (.mark v id s)⟩) ⟨h, .refl t⟩ hu).2

theorem endTask (h : t.Leveled) (id : ScopeId) : t.Retains (t.endTask id) := by
  have hcount (v : ScopeTree) (id : ScopeId) : v.Retains (v.discount id) :=
    .modify v id fun _ => ⟨rfl, rfl, rfl⟩
  exact (of_endTask detach_within
    (fun v id h => ⟨h.1.of_retains (hcount v id), h.2.trans (hcount v id)⟩) ⟨h, .refl t⟩).2

end Leveled

-- Where a variable is declared for a scope further out, that scope takes it over.
example : (do
    let (inner, t) ← initial.create root
    let t ← t.defineVariable inner ⟨"v", false, .any, .int 1, 0, none⟩
    let (_, u) ← t.release inner
    return (decide t.Leveled, (u.find? root).map (·.locals.keys)) : Except Error _).toOption =
      some (false, some ["v"]) := by
  decide +kernel

/-! ## Declarations and new scopes -/

/-- **Edits keep scopes leveled**, since a declaration is made for the depth of its scope. -/
theorem Edit.leveled {may : ScopeId → Prop} {declared : ScriptFunction → Prop}
    (he : t.Edit may declared u) (h : t.All Scope.Leveled) : u.All Scope.Leveled := by
  have hat {id : ScopeId} {c : Scope} (hc : t.find? id = some c) {f : Scope → Scope}
      (hf : c.Leveled → (f c).Leveled) : (t.modify id f).All Scope.Leveled := by
    refine All.modify h fun c' hc' hl => ?_
    rw [hc] at hc'
    cases hc'
    exact hf hl
  cases he with
  | same => exact h
  | declaration hc _ hdepth => exact hat hc fun hl => hl.insert_local hdepth _
  | assignment hc hv hdepth =>
    exact hat hc fun hl => hl.insert_local (hdepth.trans (hl.locals _ (Table.mem_entries.2 hv))) _
  | function hc _ _ hdepth => exact hat hc fun hl => hl.insert_function hdepth _
  | implementation hc _ hdepth hi =>
    refine hat hc fun hl => hl.insert_implementation hdepth (fun m hm => ?_) _
    exact (hi m.1 m.2 (Table.mem_entries.1 hm)).2.trans hdepth
  | markers => exact All.modify h fun _ _ hl => hl.of_retains ⟨rfl, rfl, rfl⟩

theorem All.create_leveled {inner : ScopeId} (h : t.All Scope.Leveled)
    (hc : t.create id = .ok (inner, u)) : u.All Scope.Leveled :=
  h.create (fun _ _ => Scope.leveled_fresh _ _) (fun _ _ hl => hl.of_retains ⟨rfl, rfl, rfl⟩) hc

/-! ## Names -/

/-- The scopes of `t` that are not newer than `t₀` have the parents and names that they have there. -/
structure KeepsNames (t₀ t : ScopeTree) : Prop where
  next : t₀.nextId ≤ t.nextId
  old : ∀ x c', x < t₀.nextId → t.find? x = some c' →
    ∃ c, t₀.find? x = some c ∧ c'.parent = c.parent ∧ c'.names = c.names

/-- The names that are bound in a scope and in its ancestors. -/
def namesAbove (t : ScopeTree) (id : ScopeId) : List (ScopeId × Scope.Names) :=
  (t.ancestry id).map fun e => (e.1, e.2.names)

namespace KeepsNames

variable {t₀ : ScopeTree}

theorem refl (t : ScopeTree) : t.KeepsNames t := ⟨Nat.le_refl _, fun _ c _ hc => ⟨c, hc, rfl, rfl⟩⟩

theorem of_retains (h : t₀.KeepsNames t) (hr : t.Retains u) : t₀.KeepsNames u := by
  refine ⟨hr.next ▸ h.next, fun x c'' hx hc'' => ?_⟩
  obtain ⟨c', hc', hcr⟩ := hr.kept x c'' hc''
  obtain ⟨c, hc, hparent, hnames⟩ := h.old x c' hx hc'
  refine ⟨c, hc, hcr.parent.trans hparent, Eq.trans ?_ hnames⟩
  exact congrArg Scope.Bindings.names hcr.bindings

/-- A script declares in new scopes, and an assignment binds no new name. -/
theorem edit {may : ScopeId → Prop} {declared : ScriptFunction → Prop} (h : t₀.KeepsNames t)
    (he : t.Edit may declared u) (hmay : ∀ x, may x → t₀.nextId ≤ x) : t₀.KeepsNames u := by
  have hold (f : Scope → Scope) {id : ScopeId} (hf : ∀ c, id < t₀.nextId → t.find? id = some c →
      (f c).parent = c.parent ∧ (f c).names = c.names) : t₀.KeepsNames (t.modify id f) := by
    refine ⟨h.next, fun x c' hx hc' => ?_⟩
    rw [find?_modify] at hc'
    split at hc'
    · next heq =>
      subst heq
      obtain ⟨d, hd, rfl⟩ := Option.map_eq_some_iff.1 hc'
      obtain ⟨c, hc, hparent, hnames⟩ := h.old _ d hx hd
      obtain ⟨hfp, hfn⟩ := hf d hx hd
      exact ⟨c, hc, hfp.trans hparent, hfn.trans hnames⟩
    · exact h.old x c' hx hc'
  cases he with
  | same => exact h
  | declaration _ hid _ => exact hold _ fun _ hlt _ => absurd (hmay _ hid) (Nat.not_le_of_lt hlt)
  | @assignment _ c _ _ w hc hv _ =>
    refine hold _ fun d _ hd => ⟨rfl, ?_⟩
    rw [hc] at hd
    cases hd
    unfold Scope.names Scope.Bindings.names Scope.bindings
    rw [Table.keySet_insert hv]
  | function _ hid _ _ => exact hold _ fun _ hlt _ => absurd (hmay _ hid) (Nat.not_le_of_lt hlt)
  | implementation _ hid _ _ =>
    exact hold _ fun _ hlt _ => absurd (hmay _ hid) (Nat.not_le_of_lt hlt)
  | markers => exact hold _ fun _ _ _ => ⟨rfl, rfl⟩

theorem created {p : ScopeId} {ps : Scope} (h : t₀.KeepsNames t) (wf : t.WellFormed)
    (hp : t.find? p = some ps) (hc : t.Created p ps u) : t₀.KeepsNames u := by
  refine ⟨Nat.le_trans h.next (by rw [hc.next]; omega), fun x c' hx hc' => ?_⟩
  rcases hc.find?_cases wf hp hc' with ⟨rfl, -⟩ | ⟨d, hd, he⟩
  · exact absurd h.next (Nat.not_le_of_lt hx)
  · rw [he]
    exact h.old x d hx hd

/-- **A scope and its ancestors bind the names that they did.** They are old, as the scope is. -/
theorem namesAbove (h : t₀.KeepsNames t) (wf₀ : t₀.WellFormed) (wf : t.WellFormed) {x : ScopeId}
    (hx : x < t₀.nextId) (hreg : t.contains x) : t.namesAbove x = t₀.namesAbove x := by
  -- By induction on the id: a parent is older than its children.
  induction x using Nat.strongRecOn with
  | ind x ih =>
    obtain ⟨c', hc'⟩ := contains_iff.1 hreg
    obtain ⟨c, hc, hparent, hnames⟩ := h.old x c' hx hc'
    unfold ScopeTree.namesAbove
    rw [wf.ancestry_of_find? hc', wf₀.ancestry_of_find? hc, ← hparent, List.map_cons, List.map_cons,
      hnames]
    cases hp : c'.parent with
    | none => rfl
    | some p =>
      obtain ⟨q, hq, hlt, -⟩ := wf.find?_parent hc' hp
      exact congrArg _ (ih p hlt (Nat.lt_trans hlt hx) (contains_iff.2 ⟨q, hq⟩))

end KeepsNames

end ScopeTree

end TreeScript
