import TreeScript.Proofs.Completion

/-!
# What a scope leaves to its parent

A scope offers a name with its own binding, or else with what the oldest of its children offers that was
declared for no deeper scope (`Kind.offered`, `WellFormed.offered_eq_some_iff`). When the scope is removed,
its parent takes over those of its offers that were declared for no deeper scope than the parent, under the
names that the parent does not bind itself.

* `Kind`: variables, functions and implementations are taken over by one law.
* `WellFormed.find?_residue`: a scope leaves what it offers.
* `TakesOver t id ps ps'`: what the parent is before and after the removal of `id`.
* `Reachable.remove_takes_over`: removals succeed, take away the scope with all below it and change nothing
  else than the parent.
-/

namespace TreeScript

private theorem findSome?_congr {α β : Type} {l : List α} {f g : α → Option β} (h : ∀ a ∈ l, f a = g a) :
    l.findSome? f = l.findSome? g := by
  induction l with
  | nil => rfl
  | cons a l ih =>
    rw [List.findSome?_cons, List.findSome?_cons, h a List.mem_cons_self,
      ih fun b hb => h b (List.mem_cons_of_mem _ hb)]

/-- In a list of ids from the oldest to the newest, the first one is the oldest one. -/
private theorem findSome?_eq_some_iff_oldest {β : Type} {l : List ScopeId} {f : ScopeId → Option β} {b : β}
    (hl : l.Pairwise (· < ·)) :
    l.findSome? f = some b ↔ ∃ c ∈ l, f c = some b ∧ ∀ d ∈ l, d < c → f d = none := by
  induction l with
  | nil => simp
  | cons a l ih =>
    obtain ⟨ha, hl⟩ := List.pairwise_cons.1 hl
    rw [List.findSome?_cons]
    cases hfa : f a with
    | some b' =>
      constructor
      · intro h
        refine ⟨a, List.mem_cons_self, hfa.trans h, fun d hd hlt => ?_⟩
        rcases List.mem_cons.1 hd with rfl | hd
        · exact absurd hlt (Nat.lt_irrefl d)
        · exact absurd hlt (Nat.lt_asymm (ha d hd))
      · rintro ⟨c, hc, hb, hnone⟩
        rcases List.mem_cons.1 hc with rfl | hc
        · exact hfa.symm.trans hb
        · have hnone := hnone a List.mem_cons_self (ha c hc)
          rw [hfa] at hnone
          cases hnone
    | none =>
      rw [ih hl]
      constructor
      · rintro ⟨c, hc, hb, hnone⟩
        refine ⟨c, List.mem_cons_of_mem _ hc, hb, fun d hd hlt => ?_⟩
        rcases List.mem_cons.1 hd with rfl | hd
        · exact hfa
        · exact hnone d hd hlt
      · rintro ⟨c, hc, hb, hnone⟩
        rcases List.mem_cons.1 hc with rfl | hc
        · rw [hfa] at hb
          cases hb
        · exact ⟨c, hc, hb, fun d hd => hnone d (List.mem_cons_of_mem _ hd)⟩

/-! ## Kinds of bindings -/

namespace Scope

theorem find?_locals_absorb (s : Scope) (id : ScopeId) (child : Scope) (name : String) :
    (s.absorb id child).locals.find? name =
      (s.locals.find? name).or ((child.locals.find? name).filter (·.depth ≤ s.depth)) := by
  unfold absorb
  rw [Table.find?_merge, Table.find?_filter]

theorem find?_implementations_absorb (s : Scope) (id : ScopeId) (child : Scope) (name : String) :
    (s.absorb id child).implementations.find? name =
      (s.implementations.find? name).or
        ((child.implementations.find? name).filter (·.depth ≤ s.depth)) := by
  unfold absorb
  rw [Table.find?_merge, Table.find?_filter]

end Scope

/-- Whether a callable is a function of the script that was declared for no deeper scope than one of the
depth. -/
def Callable.fits (depth : Nat) : Callable → Bool
  | script f => f.depth ≤ depth
  | native _ => false
  | overloads _ => false

namespace Scope

/-- Other callables count as deep as the child, so they stay behind. -/
theorem find?_functions_absorb (s : Scope) (id : ScopeId) (child : Scope) (name : String)
    (h : s.depth < child.depth) :
    (s.absorb id child).functions.find? name =
      (s.functions.find? name).or ((child.functions.find? name).filter (Callable.fits s.depth)) := by
  have hfits (c : Callable) : decide (child.callableDepth c ≤ s.depth) = c.fits s.depth := by
    cases c with
    | script f => rfl
    | native n => exact decide_eq_false (Nat.not_le_of_lt h)
    | overloads members => exact decide_eq_false (Nat.not_le_of_lt h)
  unfold absorb
  rw [Table.find?_merge, Table.find?_filter]
  simp only [hfits]

/-- A kind of bindings. -/
structure Kind (α : Type) where
  /-- The bindings of this kind that a scope holds. -/
  table : Scope → Table String α
  /-- Whether a binding can go to a scope of some depth. -/
  fits : Nat → α → Bool
  /-- A scope keeps its bindings and takes over those of a child that can go to it. -/
  absorbed : ∀ (s : Scope) (id : ScopeId) (child : Scope) (name : String), s.depth < child.depth →
    (table (s.absorb id child)).find? name =
      ((table s).find? name).or (((table child).find? name).filter (fits s.depth))

namespace Kind

def locals : Kind Variable :=
  ⟨Scope.locals, fun depth v => v.depth ≤ depth, fun s id child name _ =>
    s.find?_locals_absorb id child name⟩

def functions : Kind Callable := ⟨Scope.functions, Callable.fits, find?_functions_absorb⟩

def implementations : Kind Implementation :=
  ⟨Scope.implementations, fun depth i => i.depth ≤ depth, fun s id child name _ =>
    s.find?_implementations_absorb id child name⟩

variable {α : Type} (K : Kind α)

/-- From several children, the first binding that can go to the scope is taken over. -/
theorem find?_absorbAll (s : Scope) (l : List ScopeId) (left : ScopeId → Scope) (name : String)
    (h : ∀ c ∈ l, s.depth < (left c).depth) :
    (K.table (s.absorbAll l left)).find? name =
      ((K.table s).find? name).or
        (l.findSome? fun c => ((K.table (left c)).find? name).filter (K.fits s.depth)) := by
  induction l generalizing s with
  | nil => exact (Option.or_none).symm
  | cons c l ih =>
    have hdepth : (s.absorb c (left c)).depth = s.depth := rfl
    rw [absorbAll_cons, ih (s.absorb c (left c)) fun d hd => h d (List.mem_cons_of_mem _ hd), hdepth,
      K.absorbed s c (left c) name (h c List.mem_cons_self), Option.or_assoc, List.findSome?_cons]
    cases ((K.table (left c)).find? name).filter (K.fits s.depth) <;> rfl

/-- What a scope offers under a name if the tree is followed at most `limit` levels down. -/
def offeredWithin (t : ScopeTree) (name : String) : Nat → ScopeId → Option α
  | 0, _ => none
  | limit + 1, id =>
    match t.find? id with
    | none => none
    | some s => ((K.table s).find? name).or
        (s.children.keys.findSome? fun c => (offeredWithin t name limit c).filter (K.fits s.depth))

/-- What a scope offers under a name: its own binding, or else what the oldest child offers that can go to
the scope. -/
def offered (t : ScopeTree) (id : ScopeId) (name : String) : Option α :=
  K.offeredWithin t name (t.nextId - id) id

/-- The binding that a scope offers under a name. -/
def IsOffered (t : ScopeTree) (id : ScopeId) (name : String) (b : α) : Prop :=
  ∃ s, t.find? id = some s ∧
    ((K.table s).find? name = some b ∨
      (K.table s).find? name = none ∧ ∃ c, s.children.contains c ∧ K.offered t c name = some b ∧
        K.fits s.depth b ∧ ∀ d, s.children.contains d → d < c → ∀ b', K.offered t d name = some b' →
          ¬K.fits s.depth b')

/-- The parent, which was `ps`, keeps its bindings. Under other names it has what the scope offers that
can go to the parent. -/
structure TakesOver (t : ScopeTree) (id : ScopeId) (ps ps' : Scope) : Prop where
  kept : ∀ name b, (K.table ps).find? name = some b → (K.table ps').find? name = some b
  moved : ∀ name, (K.table ps).find? name = none →
    (K.table ps').find? name = (K.offered t id name).filter (K.fits ps.depth)

end Kind

end Scope

namespace ScopeTree

open Scope (Kind)

variable {α : Type} {t u : ScopeTree} {id a p : ScopeId} {s ps : Scope} {name : String} {b : α}

/-! ## Offers -/

theorem WellFormed.child_depth {c : ScopeId} (wf : t.WellFormed) (ha : t.find? a = some s)
    (hc : s.children.contains c) : ∃ cs, t.find? c = some cs ∧ cs.depth = s.depth + 1 := by
  obtain ⟨cs, hcs, hp⟩ := wf.child a s c ha hc
  obtain ⟨s', hs', -, hdepth, -⟩ := wf.find?_parent hcs hp
  rw [ha] at hs'
  cases hs'
  exact ⟨cs, hcs, hdepth⟩

theorem WellFormed.depth_residue (wf : t.WellFormed) (ha : t.find? a = some s) :
    (t.residue a).depth = s.depth := by
  rw [wf.residue_eq ha]
  exact (s.absorbAll_place _ _).2.1

theorem WellFormed.find?_residueWithin (wf : t.WellFormed) (K : Kind α) (ha : t.find? a = some s)
    {limit : Nat} (hl : t.nextId - a ≤ limit) (name : String) :
    (K.table (t.residueWithin limit a)).find? name = K.offeredWithin t name limit a := by
  induction limit generalizing a s with
  | zero => exact absurd hl (levels_pos (wf.bound a s ha))
  | succ limit ih =>
    have hchild {c : ScopeId} (hc : c ∈ s.children.keys) :
        ∃ cs, t.find? c = some cs ∧ cs.depth = s.depth + 1 ∧ t.nextId - c ≤ limit := by
      have hc := Table.mem_keys.1 hc
      obtain ⟨cs, hcs, hdepth⟩ := wf.child_depth ha hc
      exact ⟨cs, hcs, hdepth, levels_step hl (wf.child_lt ha hc)⟩
    simp only [residueWithin, Kind.offeredWithin, ha]
    rw [K.find?_absorbAll]
    · congr 1
      refine findSome?_congr fun c hc => ?_
      obtain ⟨cs, hcs, -, hlimit⟩ := hchild hc
      rw [ih hcs hlimit]
    · intro c hc
      obtain ⟨cs, hcs, hdepth, hlimit⟩ := hchild hc
      have hsame : t.residueWithin limit c = t.residue c :=
        wf.residueWithin_congr (Nat.le_refl _) hlimit hcs fun _ _ => rfl
      rw [hsame, wf.depth_residue hcs, hdepth]
      exact Nat.lt_succ_self _

/-- **A scope leaves what it offers.** -/
theorem WellFormed.find?_residue (wf : t.WellFormed) (K : Kind α) (ha : t.find? a = some s)
    (name : String) : (K.table (t.residue a)).find? name = K.offered t a name :=
  wf.find?_residueWithin K ha (Nat.le_refl _) name

theorem WellFormed.offered_eq (wf : t.WellFormed) (K : Kind α) (ha : t.find? a = some s)
    (name : String) : K.offered t a name = ((K.table s).find? name).or
      (s.children.keys.findSome? fun c => (K.offered t c name).filter (K.fits s.depth)) := by
  rw [← wf.find?_residue K ha, wf.residue_eq ha, K.find?_absorbAll]
  · congr 1
    refine findSome?_congr fun c hc => ?_
    obtain ⟨cs, hcs, -⟩ := wf.child_depth ha (Table.mem_keys.1 hc)
    rw [wf.find?_residue K hcs]
  · intro c hc
    obtain ⟨cs, hcs, hdepth⟩ := wf.child_depth ha (Table.mem_keys.1 hc)
    rw [wf.depth_residue hcs, hdepth]
    exact Nat.lt_succ_self _

theorem offered_of_none (K : Kind α) (ha : t.find? a = none) (name : String) :
    K.offered t a name = none := by
  unfold Kind.offered
  cases t.nextId - a with
  | zero => rfl
  | succ limit => simp only [Kind.offeredWithin, ha]

/-- The rule by which a scope offers a binding. -/
theorem WellFormed.offered_eq_some_iff (wf : t.WellFormed) (K : Kind α) :
    K.offered t a name = some b ↔ K.IsOffered t a name b := by
  unfold Kind.IsOffered
  cases ha : t.find? a with
  | none => simp [offered_of_none K ha]
  | some s =>
    have hsorted : s.children.keys.Pairwise (· < ·) :=
      List.pairwise_map.2 (s.children.sorted.imp fun h => Nat.compare_eq_lt.1 h)
    rw [wf.offered_eq K ha]
    cases hown : (K.table s).find? name with
    | some b' => simp [hown]
    | none =>
      simp only [Option.none_or, findSome?_eq_some_iff_oldest hsorted, Table.mem_keys,
        Option.filter_eq_some_iff, Option.filter_eq_none_iff, and_assoc]
      simp [hown]

/-! ## Removals -/

/-- The parent, which was `ps`, after the removal of the scope `id`. It keeps its place and what it waits
for, and loses the child. It gains the markers of all scopes below, and what the scope offers. Callables
that are no functions of the script stay behind. -/
structure TakesOver (t : ScopeTree) (id : ScopeId) (ps ps' : Scope) : Prop where
  place : ps'.parent = ps.parent ∧ ps'.depth = ps.depth
  waits : ps'.pending = ps.pending ∧ ps'.marked = ps.marked
  children : ∀ c, ps'.children.contains c ↔ ps.children.contains c ∧ c ≠ id
  executed : ∀ n, ps'.executed.contains n ↔ ps.executed.contains n ∨
    ∃ x xs, t.Below id x ∧ t.find? x = some xs ∧ xs.executed.contains n
  locals : Kind.locals.TakesOver t id ps ps'
  functions : Kind.functions.TakesOver t id ps ps'
  implementations : Kind.implementations.TakesOver t id ps ps'
  scripts : ∀ name c, ps.functions.find? name = none → ps'.functions.find? name = some c →
    ∃ f, c = .script f ∧ f.depth ≤ ps.depth

theorem WellFormed.kind_takesOver (wf : t.WellFormed) (K : Kind α) (hs : t.find? id = some s)
    (hdepth : s.depth = ps.depth + 1) : K.TakesOver t id ps (ps.absorb id (t.residue id)) := by
  have hfind (name : String) : (K.table (ps.absorb id (t.residue id))).find? name =
      ((K.table ps).find? name).or ((K.offered t id name).filter (K.fits ps.depth)) := by
    have hdeeper : ps.depth < (t.residue id).depth := by
      rw [wf.depth_residue hs, hdepth]
      exact Nat.lt_succ_self _
    rw [K.absorbed ps id (t.residue id) name hdeeper, wf.find?_residue K hs]
  constructor
  · intro name b hb
    rw [hfind, hb]
    rfl
  · intro name hnone
    rw [hfind, hnone]
    rfl

theorem WellFormed.takesOver (wf : t.WellFormed) (hs : t.find? id = some s)
    (hdepth : s.depth = ps.depth + 1) : t.TakesOver id ps (ps.absorb id (t.residue id)) where
  place := ⟨rfl, rfl⟩
  waits := ⟨rfl, rfl⟩
  children c := by
    have h := @Scope.contains_children_absorbAll ps [id] t.residue c
    rw [List.mem_singleton] at h
    exact h
  executed n := by
    have h := @Scope.contains_executed_absorbAll ps [id] t.residue n
    simp only [List.mem_singleton, exists_eq_left] at h
    rw [wf.contains_executed_residue hs] at h
    exact h
  locals := wf.kind_takesOver _ hs hdepth
  functions := wf.kind_takesOver _ hs hdepth
  implementations := wf.kind_takesOver _ hs hdepth
  scripts name c hnone hc := by
    have hmoved := (wf.kind_takesOver Kind.functions hs hdepth).moved name hnone
    obtain ⟨-, hfits⟩ := Option.filter_eq_some_iff.1 (hmoved.symm.trans hc)
    cases c with
    | script f => exact ⟨f, rfl, of_decide_eq_true hfits⟩
    | native n => cases hfits
    | overloads members => cases hfits

/-- **Removals.** The removal of a scope other than the root succeeds. Just the scope and those below it
are gone. The parent takes over what they leave, and all other scopes are as before. -/
theorem Reachable.remove_takes_over (h : t.Reachable) (hs : t.find? id = some s) (hroot : id ≠ root) :
    ∃ p ps ps' u, s.parent = some p ∧ t.find? p = some ps ∧ t.remove id = .ok u ∧ u.nextId = t.nextId ∧
      (∀ x, u.contains x ↔ t.contains x ∧ ¬t.Below id x) ∧
      (∀ x, x ≠ p → ¬t.Below id x → u.find? x = t.find? x) ∧
      u.find? p = some ps' ∧ t.TakesOver id ps ps' ∧
      ∀ (α : Type) (K : Kind α) x name b, K.offered t x name = some b ↔ K.IsOffered t x name b := by
  have wf := h.wellFormed
  obtain ⟨p, ps, hp, hps, -, hdepth, -⟩ := wf.parent id s hs hroot
  obtain ⟨u, hu, hpruned⟩ := wf.remove hs hp hps
  obtain ⟨u', hu', hleft⟩ := wf.find?_remove hs
  cases hu.symm.trans hu'
  refine ⟨p, ps, ps.absorb id (t.residue id), u, hp, hps, hu, hpruned.next, fun x => ?_, fun x hx hb => ?_,
    hpruned.parent, wf.takesOver hs hdepth, fun α K x name b => wf.offered_eq_some_iff K⟩
  · rw [contains_iff, contains_iff]
    exact hleft x
  · rw [hpruned.find?_eq, if_neg hb, if_neg hx]

/-- Four scopes: `2` and `3` are in `1`, and `1` is in the root. Variables `y` for the root are declared in
both of the innermost scopes, and one `z` for `1`. The root and `1` bind `x`, and in `3` a jump was
executed. -/
def crowded : ScopeTree :=
  (Engine.bare.perform [.create root, .create 1, .create 1, .declare root "x" false .any (.int 1),
    .define 1 0 "x" false .any (.int 2), .define 2 0 "y" false .any (.int 3),
    .define 3 0 "y" false .any (.int 4), .define 3 1 "z" false .any (.int 5),
    .markExecuted 3 7] .initial).scopes

/-- With `1`, all but the root goes. The root keeps its `x` and takes over the `y` of `2`, which is older
than `3`, but not the `z`. -/
theorem Reachable.remove_takes_over_crowded :
    crowded.Reachable ∧ ∃ u r, crowded.remove 1 = .ok u ∧ (∀ x, u.contains x ↔ crowded.contains x ∧
        ¬crowded.Below 1 x) ∧ u.find? root = some r ∧
      (r.locals.find? "x").map (·.value) = some (.int 1) ∧
      (r.locals.find? "y").map (·.value) = some (.int 3) ∧ r.locals.find? "z" = none ∧
      r.executed.contains 7 := by
  have h : crowded.Reachable := Engine.Reachable.scopes (Engine.reaches_perform ..)
  obtain ⟨p, ps, r, u, hp, hps, hu, -, hgone, -, hr, htakes, -⟩ :=
    h.remove_takes_over (show crowded.find? 1 = some _ from rfl) (by decide)
  obtain rfl : root = p := Option.some.inj hp
  obtain rfl := Option.some.inj hps
  have hkept := htakes.locals.kept "x" ⟨"x", false, .any, .int 1, 0, none⟩ rfl
  have hy := htakes.locals.moved "y" rfl
  have hz := htakes.locals.moved "z" rfl
  refine ⟨h, u, r, hu, hgone, hr, ?_, ?_, hz, ?_⟩
  · exact congrArg (Option.map (·.value)) hkept
  · exact congrArg (Option.map (·.value)) hy
  · exact (htakes.executed 7).2 (.inr ⟨3, _, by decide +kernel, rfl, by decide +kernel⟩)

end ScopeTree

end TreeScript
