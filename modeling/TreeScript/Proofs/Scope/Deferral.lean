import TreeScript.Proofs.Completion
import TreeScript.Proofs.Scope.Nearest

/-!
# Releases before and after the tasks

A release that finds pending tasks only marks the scope. What is torn down while the tasks end is torn down
as without the mark, until the last of them ends and takes the scope with it. So it does not matter whether
a scope is released before or after its tasks end.

* `Scope.announced`: what a mark changes. `find?_mark_eq_map`: nothing else.
* `Lasts t c e`: the scope `c`, which was `e` when it was released, is still there.
* `Lasts.discard`: what is torn down beside or below `c` is torn down as without the mark.
* `Lasts.endTask_of_pending`, `Lasts.endTask_of_idle`: the end of a task, before the last one and the last
  one.
* `Reachable.release_commutes`: the release commutes with the ends of the tasks.
-/

namespace TreeScript

/-! ## Marks -/

namespace Scope

/-- The scope `x` after `c`, which was `e`, is marked. -/
def announced (c : ScopeId) (e : Scope) (x : ScopeId) (s : Scope) : Scope :=
  { s with
    marked := if c = x then true else s.marked
    executed := if e.parent = some x then KeySet.union s.executed e.executed else s.executed }

variable {c x : ScopeId} {e child : Scope}

theorem announced_eq_self (hx : c ≠ x) (hp : e.parent ≠ some x) (s : Scope) : announced c e x s = s := by
  unfold announced
  rw [if_neg hx, if_neg hp]

/-- It does not matter whether a scope first takes over markers or what a child leaves. -/
theorem absorb_announced (c : ScopeId) (e : Scope) (x : ScopeId) (s : Scope) (id : ScopeId)
    (child : Scope) : (announced c e x s).absorb id child = announced c e x (s.absorb id child) := by
  unfold announced absorb
  congr 1
  by_cases hp : e.parent = some x
  · refine KeySet.ext_contains fun n => ?_
    simp only [hp, if_true, KeySet.contains_union]
    tauto
  · simp only [hp, if_false]

theorem absorbAll_announced (c : ScopeId) (e : Scope) (x : ScopeId) (s : Scope) (l : List ScopeId)
    (left : ScopeId → Scope) :
    (announced c e x s).absorbAll l left = announced c e x (s.absorbAll l left) := by
  induction l generalizing s with
  | nil => rfl
  | cons d l ih => rw [absorbAll_cons, absorbAll_cons, absorb_announced, ih]

/-- The parent was only given markers that come again when the scope is torn down. -/
theorem absorb_announced_self (hx : c ≠ x) (hp : e.parent = some x)
    (h : ∀ n, e.executed.contains n → child.executed.contains n) (s : Scope) :
    (announced c e x s).absorb c (announced c e c child) = s.absorb c child := by
  have hpc : e.parent ≠ some c := fun hpc => hx (Option.some.inj (hpc.symm.trans hp))
  unfold announced absorb
  rw [if_neg hx, if_pos hp, if_neg hpc]
  congr 1
  refine KeySet.ext_contains fun n => ?_
  have hn := h n
  rw [KeySet.contains_union, KeySet.contains_union, KeySet.contains_union]
  tauto

end Scope

namespace ScopeTree

open Scope (announced)

variable {t u : ScopeTree} {a c o r x : ScopeId} {e s : Scope} {l owners : List ScopeId}

theorem find?_mark_eq_map (t : ScopeTree) (c : ScopeId) (e : Scope) (x : ScopeId) :
    (t.mark c e).find? x = (t.find? x).map (announced c e x) := by
  unfold mark announced
  cases hp : e.parent with
  | none =>
    rw [find?_modify]
    by_cases hx : c = x <;> simp [hx]
  | some p =>
    dsimp only
    rw [find?_modify, find?_modify]
    by_cases hx : c = x <;> by_cases hpx : p = x <;> cases t.find? x <;> simp [hx, hpx]

theorem find?_mark_of_some (c : ScopeId) (e : Scope) (hs : t.find? x = some s) :
    (t.mark c e).find? x = some (announced c e x s) := by
  rw [find?_mark_eq_map, hs, Option.map_some]

theorem find?_mark_of_ne (hx : c ≠ x) (hp : e.parent ≠ some x) : (t.mark c e).find? x = t.find? x := by
  rw [find?_mark_eq_map]
  cases t.find? x with
  | none => rfl
  | some s => rw [Option.map_some, Scope.announced_eq_self hx hp]

theorem mark_discount (t : ScopeTree) (c : ScopeId) (e : Scope) (o : ScopeId) :
    (t.mark c e).discount o = (t.discount o).mark c e := by
  refine ext_find? ?_ fun x => ?_
  · rw [nextId_mark]
    exact nextId_mark t c e
  · unfold discount
    rw [find?_modify, find?_mark_eq_map, find?_mark_eq_map, find?_modify]
    by_cases hx : o = x
    · simp only [hx, if_true, Option.map_map]
      rfl
    · simp only [hx, if_false]

theorem chain_modify (t : ScopeTree) (id : ScopeId) {f : Scope → Scope} (hf : ∀ s, (f s).parent = s.parent)
    (x : ScopeId) : (t.modify id f).chain x = t.chain x := by
  unfold chain
  rw [ancestry_modify t id f hf, List.map_map]
  rfl

theorem chain_mark (t : ScopeTree) (c : ScopeId) (e : Scope) (x : ScopeId) :
    (t.mark c e).chain x = t.chain x := by
  have hmarked : (t.modify c fun s => { s with marked := true }).chain x = t.chain x := by
    rw [chain_modify]
    exact fun _ => rfl
  unfold mark
  split
  · exact hmarked
  · dsimp only
    rw [chain_modify]
    · exact hmarked
    · exact fun _ => rfl

theorem below_mark : (t.mark c e).Below a x ↔ t.Below a x := by
  unfold Below
  rw [chain_mark]

theorem WellFormed.hasPending_mark (wf : t.WellFormed) : (t.mark c e).hasPending a ↔ t.hasPending a := by
  rw [wf.hasPending_iff, (wf.mark c e).hasPending_iff]
  constructor
  · rintro ⟨x, s', hb, hs', hpos⟩
    rw [find?_mark_eq_map] at hs'
    obtain ⟨s, hs, rfl⟩ := Option.map_eq_some_iff.1 hs'
    exact ⟨x, s, below_mark.1 hb, hs, hpos⟩
  · rintro ⟨x, s, hb, hs, hpos⟩
    exact ⟨x, announced c e x s, below_mark.2 hb, find?_mark_of_some c e hs, hpos⟩

/-- The way from a scope to the root through `c`: younger scopes, `c`, and the scopes above `c`. -/
theorem WellFormed.chain_split (wf : t.WellFormed) (hb : t.Below c o) :
    ∃ inner outer, t.chain o = inner ++ c :: outer ∧ (∀ r ∈ inner, c < r) ∧
      ∀ a ∈ outer, a < c ∧ t.Below a c := by
  obtain ⟨inner, outer, hchain⟩ := List.append_of_mem hb
  have hsorted := wf.chain_pairwise o
  rw [hchain] at hsorted
  obtain ⟨-, houter, hinner⟩ := List.pairwise_append.1 hsorted
  obtain ⟨houter, -⟩ := List.pairwise_cons.1 houter
  refine ⟨inner, outer, hchain, fun r hr => hinner r hr c List.mem_cons_self, fun a ha => ?_⟩
  have hlt := houter a ha
  have hao : t.Below a o := by
    unfold Below
    rw [hchain]
    exact List.mem_append_right _ (List.mem_cons_of_mem _ ha)
  rcases wf.below_total hao hb with hac | hca
  · exact ⟨hlt, hac⟩
  · exact absurd hlt (Nat.not_lt.2 (wf.le_of_below hca))

/-! ## Scopes that last -/

/-- The scope `c`, which was `e` when it was released, is there. It has kept its place, its mark and its
markers, and no scope above it is marked. -/
structure Lasts (t : ScopeTree) (c : ScopeId) (e : Scope) : Prop where
  wellFormed : t.WellFormed
  there : ∃ s, t.find? c = some s ∧ s.parent = e.parent ∧ s.marked = e.marked ∧
    ∀ n, e.executed.contains n → s.executed.contains n
  unmarked : ∀ a s, t.Below a c → a ≠ c → t.find? a = some s → s.marked = false

namespace Lasts

variable (h : t.Lasts c e)

include h

theorem discount (o : ScopeId) : (t.discount o).Lasts c e := by
  have hlinks := t.sameLinks_discount o
  have wf' := h.wellFormed.discount o
  refine ⟨wf', ?_, ?_⟩
  · obtain ⟨s, hs, hkept⟩ := h.there
    exact ⟨_, find?_discount o hs, hkept⟩
  · intro a s' hb hne hs'
    obtain ⟨s, hs, -⟩ := hlinks.symm.find? hs'
    rw [find?_discount o hs] at hs'
    cases hs'
    exact h.unmarked a s (wf'.below_of_links h.wellFormed hlinks.symm hb) hne hs

/-- A scope that is not above `c` is not the parent of `c`, nor is one below it. -/
theorem parent_ne (hr : ¬t.Below r c) (hx : t.Below r x) : c ≠ x ∧ e.parent ≠ some x := by
  obtain ⟨s, hs, hparent, -⟩ := h.there
  constructor
  · rintro rfl
    exact hr hx
  · intro hp
    exact hr (h.wellFormed.below_step hs (hparent.trans hp) hx)

theorem residue_mark (hr : ¬t.Below r c) (hs : t.find? r = some s) :
    (t.mark c e).residue r = t.residue r := by
  unfold residue
  rw [nextId_mark]
  refine h.wellFormed.residueWithin_congr (Nat.le_refl _) (Nat.le_refl _) hs fun x hx => ?_
  obtain ⟨hne, hp⟩ := h.parent_ne hr hx
  exact find?_mark_of_ne hne hp

/-- A scope lasts where one that is not above it is gone. -/
theorem of_pruned {q : ScopeId} {qs rs : Scope} (hpruned : t.Pruned q qs [r] u) (hrs : t.find? r = some rs)
    (hq : rs.parent = some q) (hqs : t.find? q = some qs) (hr : ¬t.Below r c) : u.Lasts c e := by
  have wf := h.wellFormed
  obtain ⟨s, hs, hparent, hmarked, hexecuted⟩ := h.there
  refine ⟨hpruned.wellFormed wf hqs (areChildren_singleton hrs hq), ?_, fun a s' hb hne hs' => ?_⟩
  · rw [hpruned.find?_eq, if_neg hr]
    by_cases hcq : c = q
    · subst hcq
      rw [hs] at hqs
      cases hqs
      refine ⟨_, if_pos rfl, hparent, hmarked, fun n hn => ?_⟩
      exact KeySet.contains_union.2 (.inl (hexecuted n hn))
    · exact ⟨s, (if_neg hcq).trans hs, hparent, hmarked, hexecuted⟩
  · obtain ⟨as, has, -, -, -, hsame⟩ := (hpruned.trimmed hqs).find?_before hs'
    exact hsame.trans (h.unmarked a as ((hpruned.below_iff wf hqs hrs hq).1 hb).1 hne has)

/-- What is torn down leaves `c` where it is, and it is torn down as without the mark. -/
theorem discard (hr : ¬t.Below r c) : (t.discard r).Lasts c e ∧
    (∀ a, (t.discard r).Below a c → t.Below a c) ∧
    (t.mark c e).discard r = (t.discard r).mark c e := by
  have wf := h.wellFormed
  cases hrs : t.find? r with
  | none =>
    obtain ⟨_, he⟩ := remove_of_none hrs
    have hmark : (t.mark c e).find? r = none := by rw [find?_mark_eq_map, hrs, Option.map_none]
    obtain ⟨_, he'⟩ := remove_of_none hmark
    unfold ScopeTree.discard
    rw [he, he']
    exact ⟨h, fun _ hb => hb, rfl⟩
  | some rs =>
    have hroot : r ≠ root := by
      rintro rfl
      obtain ⟨s, hs, -⟩ := h.there
      exact hr (wf.below_root hs)
    obtain ⟨q, qs, hq, hqs, -⟩ := wf.parent r rs hrs hroot
    obtain ⟨u, hu, hpruned⟩ := wf.remove hrs hq hqs
    obtain ⟨hrc, hrp⟩ := h.parent_ne hr (wf.below_refl hrs)
    have hrs' : (t.mark c e).find? r = some rs := (find?_mark_of_ne hrc hrp).trans hrs
    obtain ⟨u', hu', hpruned'⟩ := (wf.mark c e).remove hrs' hq (find?_mark_of_some c e hqs)
    rw [discard_of_remove hu, discard_of_remove hu']
    refine ⟨h.of_pruned hpruned hrs hq hqs hr, fun a hb => ?_, ext_find? ?_ fun x => ?_⟩
    · exact ((hpruned.below_iff wf hqs hrs hq).1 hb).1
    · rw [hpruned'.next, nextId_mark, nextId_mark, hpruned.next]
    · rw [find?_mark_eq_map, hpruned'.find?_eq, hpruned.find?_eq, h.residue_mark hr hrs]
      simp only [below_mark]
      split
      · rfl
      · split
        · next hx => rw [hx, Option.map_some, Scope.absorb_announced]
        · exact find?_mark_eq_map t c e x

/-- Several scopes are torn down as without the mark. -/
theorem foldl_discard (hl : ∀ r ∈ l, ¬t.Below r c) : (l.foldl ScopeTree.discard t).Lasts c e ∧
    l.foldl ScopeTree.discard (t.mark c e) = (l.foldl ScopeTree.discard t).mark c e := by
  induction l generalizing t with
  | nil => exact ⟨h, rfl⟩
  | cons r l ih =>
    obtain ⟨hlasts, hbelow, heq⟩ := h.discard (hl r List.mem_cons_self)
    rw [List.foldl_cons, List.foldl_cons, heq]
    exact ih hlasts fun q hq hb => hl q (List.mem_cons_of_mem _ hq) (hbelow q hb)

theorem residue_mark_self (hs : t.find? c = some s) :
    (t.mark c e).residue c = announced c e c (t.residue c) := by
  have wf := h.wellFormed
  rw [(wf.mark c e).residue_eq (find?_mark_of_some c e hs), wf.residue_eq hs, ← Scope.absorbAll_announced]
  refine Scope.absorbAll_congr fun d hd => ?_
  have hd := Table.mem_keys.1 hd
  obtain ⟨ds, hds, -⟩ := wf.child c s d hs hd
  exact h.residue_mark (fun hb => Nat.not_lt.2 (wf.le_of_below hb) (wf.child_lt hs hd)) hds

/-- The scope itself is torn down as without the mark. -/
theorem discard_mark (hroot : c ≠ root) : (t.mark c e).discard c = t.discard c := by
  have wf := h.wellFormed
  obtain ⟨s, hs, hparent, -, hexecuted⟩ := h.there
  obtain ⟨p, ps, hp, hps, hlt, -⟩ := wf.parent c s hs hroot
  have hne : c ≠ p := Nat.ne_of_gt hlt
  have hep : e.parent = some p := hparent.symm.trans hp
  obtain ⟨u, hu, hpruned⟩ := wf.remove hs hp hps
  obtain ⟨u', hu', hpruned'⟩ :=
    (wf.mark c e).remove (find?_mark_of_some c e hs) hp (find?_mark_of_some c e hps)
  have hleft (n : Nat) (hn : e.executed.contains n) : (t.residue c).executed.contains n :=
    (wf.contains_executed_residue hs).2 ⟨c, s, wf.below_refl hs, hs, hexecuted n hn⟩
  rw [discard_of_remove hu, discard_of_remove hu']
  refine ext_find? ?_ fun x => ?_
  · rw [hpruned'.next, nextId_mark, hpruned.next]
  · rw [hpruned'.find?_eq, hpruned.find?_eq, h.residue_mark_self hs,
      Scope.absorb_announced_self hne hep hleft]
    simp only [below_mark]
    split
    · rfl
    · next hx =>
      split
      · rfl
      · next hxp =>
        refine find?_mark_of_ne ?_ fun hpx => hxp (Option.some.inj (hpx.symm.trans hep))
        rintro rfl
        exact hx (wf.below_refl hs)

/-- The scopes that wait for the end of a task, with and without the mark. Above `c` there are none. -/
theorem ready_mark (hb : t.Below c o) : ∃ l, (∀ r ∈ l, ¬t.Below r c) ∧
    t.ready o = l ++ (if e.marked && !t.hasPending c then [c] else []) ∧
    (t.mark c e).ready o = l ++ (if t.hasPending c then [] else [c]) := by
  have wf := h.wellFormed
  obtain ⟨s, hs, -, hmarked, -⟩ := h.there
  obtain ⟨inner, outer, hchain, hinner, houter⟩ := wf.chain_split hb
  have hpending (a : ScopeId) : (t.mark c e).hasPending a = t.hasPending a :=
    Bool.eq_iff_iff.2 wf.hasPending_mark
  have hsame {a : ScopeId} (ha : c ≠ a) :
      ((t.mark c e).find? a).any (·.marked) = (t.find? a).any (·.marked) := by
    rw [find?_mark_eq_map]
    cases t.find? a with
    | none => rfl
    | some q => simp [announced, ha]
  have hunmarked {a : ScopeId} (ha : a ∈ outer) : (t.find? a).any (·.marked) = false := by
    obtain ⟨hlt, hac⟩ := houter a ha
    obtain ⟨q, hq⟩ := wf.find?_of_above hac
    rw [hq]
    exact h.unmarked a q hac (Nat.ne_of_lt hlt) hq
  -- Both lists are filters of one way to the root, and the filters differ at `c` only.
  refine ⟨inner.filter fun a => (t.find? a).any (·.marked) && !t.hasPending a, ?_, ?_, ?_⟩
  · intro r hr hrc
    exact Nat.not_lt.2 (wf.le_of_below hrc) (hinner r (List.mem_filter.1 hr).1)
  · have hrest : (outer.filter fun a => (t.find? a).any (·.marked) && !t.hasPending a) = [] :=
      List.filter_eq_nil_iff.2 fun a ha => by simp [hunmarked ha]
    unfold ready
    rw [hchain, List.filter_append, List.filter_cons, hrest, hs]
    simp only [Option.any_some, hmarked]
  · have hrest : (outer.filter fun a => ((t.mark c e).find? a).any (·.marked) &&
        !(t.mark c e).hasPending a) = [] :=
      List.filter_eq_nil_iff.2 fun a ha => by
        simp [hsame (Nat.ne_of_gt (houter a ha).1), hunmarked ha]
    unfold ready
    rw [chain_mark, hchain, List.filter_append, List.filter_cons, hrest, find?_mark_eq_map, hs, hpending]
    congr 1
    · refine List.filter_congr fun a ha => ?_
      rw [hsame (Nat.ne_of_lt (hinner a ha)), hpending]
    · cases t.hasPending c <;> simp [announced]

/-! ## Ends of tasks -/

/-- While another task is pending, the end of a task tears down what it would without the mark. -/
theorem endTask_of_pending (hb : t.Below c o) (hpending : (t.discount o).hasPending c) :
    (t.endTask o).Lasts c e ∧ (t.mark c e).endTask o = (t.endTask o).mark c e := by
  have hd := h.discount o
  have hb' := h.wellFormed.below_of_links hd.wellFormed (t.sameLinks_discount o) hb
  obtain ⟨l, hl, hready, hready'⟩ := hd.ready_mark hb'
  simp only [hpending, Bool.not_true, Bool.and_false, Bool.false_eq_true, if_true, if_false,
    List.append_nil] at hready hready'
  rw [endTask_eq_tearDown, endTask_eq_tearDown, mark_discount, tearDown, tearDown, hready, hready']
  exact hd.foldl_discard hl

/-- The end of the last task tears down the scope too. Without the mark, it is left and waits for nothing,
unless it was marked before. -/
theorem endTask_of_idle (hroot : c ≠ root) (hb : t.Below c o) (hidle : ¬(t.discount o).hasPending c) :
    ∃ v : ScopeTree, v.Lasts c e ∧ ¬v.hasPending c ∧ (t.mark c e).endTask o = v.discard c ∧
      t.endTask o = if e.marked then v.discard c else v := by
  have hd := h.discount o
  have hb' := h.wellFormed.below_of_links hd.wellFormed (t.sameLinks_discount o) hb
  obtain ⟨l, hl, hready, hready'⟩ := hd.ready_mark hb'
  obtain ⟨hlasts, heq⟩ := hd.foldl_discard hl
  refine ⟨l.foldl ScopeTree.discard (t.discount o), hlasts, ?_, ?_, ?_⟩
  · have hne : ∀ r ∈ l, r ≠ root := by
      rintro r hr rfl
      obtain ⟨s, hs, -⟩ := hd.there
      exact hl root hr (hd.wellFormed.below_root hs)
    obtain ⟨-, ht, -⟩ := hd.wellFormed.foldl_discard hne
    intro hpending
    obtain ⟨x, s', hx, hs', hpos⟩ := hlasts.wellFormed.hasPending_iff.1 hpending
    obtain ⟨s, hs, -, -, hsame, -⟩ := ht.find?_before hs'
    have hx' := ((ht.below_iff hd.wellFormed hlasts.wellFormed).1 hx).1
    exact hidle (hd.wellFormed.hasPending_iff.2 ⟨x, s, hx', hs, hsame ▸ hpos⟩)
  · rw [endTask_eq_tearDown, mark_discount, tearDown, hready', if_neg hidle, List.foldl_append, heq]
    exact hlasts.discard_mark hroot
  · rw [endTask_eq_tearDown, tearDown, hready, List.foldl_append]
    cases e.marked <;> simp [hidle]

/-- A scope that waits for nothing is torn down at once. -/
theorem release_of_idle (hroot : c ≠ root) (hidle : ¬t.hasPending c) :
    t.release c = .ok (.removed, t.discard c) ∧ (t.discard c).find? c = none := by
  have wf := h.wellFormed
  obtain ⟨s, hs, -⟩ := h.there
  obtain ⟨p, ps, hp, hps, -⟩ := wf.parent c s hs hroot
  obtain ⟨u, hu, hpruned⟩ := wf.remove hs hp hps
  rw [discard_of_remove hu]
  refine ⟨?_, hpruned.gone c List.mem_cons_self c (wf.below_refl hs)⟩
  unfold release
  rw [if_neg hroot, hs, hu]
  simp [hidle, Except.map]

end Lasts

/-! ## Tasks below a scope -/

/-- The list names the owner of each task that is pending in `c` or below it, in some order. -/
def TasksBelow (t : ScopeTree) (c : ScopeId) (owners : List ScopeId) : Prop :=
  ∀ x, owners.count x = if t.Below c x then (t.find? x).elim 0 (·.pending) else 0

namespace TasksBelow

theorem below (h : t.TasksBelow c owners) (ho : o ∈ owners) : t.Below c o := by
  by_contra hb
  have hcount := h o
  rw [if_neg hb, List.count_eq_zero] at hcount
  exact hcount ho

theorem hasPending_iff (h : t.TasksBelow c owners) (wf : t.WellFormed) :
    t.hasPending c ↔ owners ≠ [] := by
  rw [wf.hasPending_iff]
  constructor
  · rintro ⟨x, s, hb, hs, hpos⟩ rfl
    have hcount := h x
    rw [if_pos hb, hs] at hcount
    exact absurd hcount (Nat.ne_of_lt hpos)
  · intro hne
    obtain ⟨o, ho⟩ := List.exists_mem_of_ne_nil owners hne
    have hb := h.below ho
    obtain ⟨s, hs⟩ := wf.find?_of_below hb
    have hcount := h o
    rw [if_pos hb, hs] at hcount
    refine ⟨o, s, hb, hs, ?_⟩
    exact Nat.lt_of_lt_of_eq (List.count_pos_iff.2 ho) hcount

theorem discount (h : t.TasksBelow c (o :: owners)) (wf : t.WellFormed) :
    (t.discount o).TasksBelow c owners := by
  have hlinks := t.sameLinks_discount o
  intro x
  have hcount := h x
  rw [List.count_cons] at hcount
  by_cases hb : t.Below c x
  · have hb' := wf.below_of_links (wf.discount o) hlinks hb
    obtain ⟨s, hs⟩ := wf.find?_of_below hb
    rw [if_pos hb, hs] at hcount
    rw [if_pos hb', find?_discount o hs]
    dsimp only [Option.elim] at hcount ⊢
    by_cases ho : o = x
    · simp only [ho, beq_self_eq_true, if_true] at hcount ⊢
      omega
    · simp only [beq_iff_eq, ho, if_false] at hcount ⊢
      omega
  · have hb' : ¬(t.discount o).Below c x := fun hb' =>
      hb ((wf.discount o).below_of_links wf hlinks.symm hb')
    rw [if_neg hb] at hcount
    rw [if_neg hb']
    omega

/-- Where scopes that wait for nothing are gone, the same tasks are pending. -/
theorem trim (h : t.TasksBelow c owners) (wf : t.WellFormed) (wf' : u.WellFormed) (ht : Trimmed l t u)
    (hidle : ∀ r ∈ l, ¬t.hasPending r) : u.TasksBelow c owners := by
  intro x
  have hcount := h x
  by_cases hb' : u.Below c x
  · have hb := ((ht.below_iff wf wf').1 hb').1
    obtain ⟨s', hs'⟩ := wf'.find?_of_below hb'
    obtain ⟨s, hs, -, -, hpending, -⟩ := ht.find?_before hs'
    rw [if_pos hb, hs] at hcount
    rw [if_pos hb', hs']
    exact hcount.trans hpending.symm
  · rw [if_neg hb', hcount]
    split
    · next hb =>
      obtain ⟨s, hs⟩ := wf.find?_of_below hb
      rw [hs]
      by_contra hpending
      refine hb' ((ht.below_iff wf wf').2 ⟨hb, fun r hr hrx => hidle r hr ?_⟩)
      exact wf.hasPending_iff.2 ⟨x, s, hrx, hs, Nat.pos_of_ne_zero hpending⟩
    · rfl

theorem endTask (h : t.TasksBelow c (o :: owners)) (wf : t.WellFormed)
    (hroot : ∀ s, t.find? root = some s → s.marked = false) : (t.endTask o).TasksBelow c owners := by
  obtain ⟨wf', ht, -⟩ := wf.endTask o hroot
  exact (h.discount wf).trim (wf.discount o) wf' ht fun r hr => (mem_ready.1 hr).2.2

end TasksBelow

theorem Lasts.root_unmarked (h : t.Lasts c e) (hroot : c ≠ root) (hs : t.find? root = some s) :
    s.marked = false := by
  obtain ⟨q, hq, -⟩ := h.there
  exact h.unmarked root s (h.wellFormed.below_root hq) (Ne.symm hroot) hs

theorem after_release {outcome : Release} (h : t.release c = .ok (outcome, u)) :
    t.after [.release c] = u := by
  unfold after
  rw [List.foldl_cons, List.foldl_nil, Operation.perform, h]

theorem after_release_of_none (h : t.find? c = none) : t.after [.release c] = t := by
  have hfails : ∃ failure, t.release c = .error failure := by
    unfold release
    rw [h]
    split <;> exact ⟨_, rfl⟩
  obtain ⟨failure, hfails⟩ := hfails
  unfold after
  rw [List.foldl_cons, List.foldl_nil, Operation.perform, hfails]

/-- **All tasks end.** After the last of them, the tree is the one in which the scope is released now. -/
theorem Lasts.after_endTasks (h : t.Lasts c e) (hroot : c ≠ root) (howners : t.TasksBelow c owners)
    (hne : owners ≠ []) :
    (t.mark c e).after (owners.map .endTask) = t.after (owners.map .endTask ++ [.release c]) ∧
      ((t.mark c e).after (owners.map .endTask)).find? c = none ∧
      (e.marked = false → ∃ u, (t.after (owners.map .endTask)).release c = .ok (.removed, u)) := by
  -- The scope lasts until the last task ends.
  induction owners generalizing t with
  | nil => exact absurd rfl hne
  | cons o owners ih =>
    have hb := howners.below List.mem_cons_self
    have hdiscount := howners.discount h.wellFormed
    have hstep (v : ScopeTree) (ops : List Operation) :
        v.after (.endTask o :: ops) = (v.endTask o).after ops := rfl
    rw [List.map_cons, List.cons_append, hstep, hstep, hstep]
    cases owners with
    | cons o' owners =>
      have hpending := (hdiscount.hasPending_iff (h.wellFormed.discount o)).2 (List.cons_ne_nil o' owners)
      obtain ⟨hlasts, heq⟩ := h.endTask_of_pending hb hpending
      rw [heq]
      refine ih hlasts (howners.endTask h.wellFormed fun s hs => ?_) (List.cons_ne_nil o' owners)
      exact h.root_unmarked hroot hs
    | nil =>
      have hidle : ¬(t.discount o).hasPending c := fun hpending =>
        (hdiscount.hasPending_iff (h.wellFormed.discount o)).1 hpending rfl
      obtain ⟨v, hlasts, hidle, heq, heq'⟩ := h.endTask_of_idle hroot hb hidle
      obtain ⟨hrelease, hgone⟩ := hlasts.release_of_idle hroot hidle
      rw [heq, heq']
      refine ⟨?_, hgone, fun hmarked => ?_⟩
      · cases e.marked with
        | true => exact (after_release_of_none hgone).symm
        | false => exact (after_release hrelease).symm
      · rw [hmarked]
        exact ⟨_, hrelease⟩

/-- **Releases commute with the ends of tasks.** A scope is released of which no scope above is marked, and
the tasks that are pending in it or below end in any order. The tree is the same if the tasks end first and
the scope is released afterwards. The first release is deferred just if there are tasks. The scope is gone
in the end; the later release removes it, unless it was marked before and the last task has done so. -/
theorem Reachable.release_commutes (h : t.Reachable) (hc : t.find? c = some s) (hroot : c ≠ root)
    (hfree : ∀ a as, t.Below a c → a ≠ c → t.find? a = some as → as.marked = false)
    (howners : t.TasksBelow c owners) :
    t.after (.release c :: owners.map .endTask) = t.after (owners.map .endTask ++ [.release c]) ∧
      (t.after (.release c :: owners.map .endTask)).find? c = none ∧
      (∃ outcome u, t.release c = .ok (outcome, u) ∧ (outcome = .deferred ↔ owners ≠ [])) ∧
      (s.marked = false → ∃ u, (t.after (owners.map .endTask)).release c = .ok (.removed, u)) := by
  have wf := h.wellFormed
  have hlasts : t.Lasts c s := ⟨wf, ⟨s, hc, rfl, rfl, fun _ hn => hn⟩, hfree⟩
  by_cases hne : owners = []
  · subst hne
    have hidle : ¬t.hasPending c := fun hpending => (howners.hasPending_iff wf).1 hpending rfl
    obtain ⟨hrelease, hgone⟩ := hlasts.release_of_idle hroot hidle
    refine ⟨rfl, ?_, ⟨_, _, hrelease, by simp⟩, fun _ => ⟨_, hrelease⟩⟩
    rw [List.map_nil, after_release hrelease]
    exact hgone
  · have hpending := (howners.hasPending_iff wf).2 hne
    have hrelease := release_of_pending hc hroot hpending
    have hfirst : t.after (.release c :: owners.map .endTask) =
        (t.mark c s).after (owners.map .endTask) := by
      have hmark := after_release hrelease
      unfold after at hmark ⊢
      rw [List.foldl_cons, ← hmark]
      rfl
    rw [hfirst]
    obtain ⟨heq, hgone, hlater⟩ := hlasts.after_endTasks hroot howners hne
    exact ⟨heq, hgone, ⟨_, _, hrelease, by simp [hne]⟩, hlater⟩

/-- Four scopes: `2` and `3` are in `1`, and `1` is in the root. Tasks of the innermost scopes wait, and `2`
was released. Both declare a variable `y` for the root, and in `3` a jump was executed. -/
def busy : ScopeTree :=
  (Engine.bare.perform [.create root, .create 1, .create 1, .define 2 0 "y" false .any (.int 2),
    .define 3 0 "y" false .any (.int 3), .markExecuted 3 7,
    .spawn 2 "load" none true (.routine (.behind "disk" .arguments)),
    .spawn 3 "save" none true (.routine (.behind "disk" .arguments)), .release 2] .initial).scopes

/-- The scope `1` is released while the tasks of `3` and `2` are pending. The second one ends first, and the
first one takes `2` with it, which was marked, and `1`. -/
theorem Reachable.release_commutes_busy :
    busy.Reachable ∧ busy.TasksBelow 1 [3, 2] ∧
      busy.after [.release 1, .endTask 3, .endTask 2] = busy.after [.endTask 3, .endTask 2, .release 1] ∧
      (busy.after [.release 1, .endTask 3, .endTask 2]).find? 1 = none := by
  have h : busy.Reachable := Engine.Reachable.scopes (Engine.reaches_perform ..)
  have wf := h.wellFormed
  have hknown : ∀ x < 4, [3, 2].count x =
      if busy.Below 1 x then (busy.find? x).elim 0 (·.pending) else 0 := by decide +kernel
  have howners : busy.TasksBelow 1 [3, 2] := by
    intro x
    by_cases hx : x < 4
    · exact hknown x hx
    · have hnone : busy.find? x = none := by
        cases hs : busy.find? x with
        | none => rfl
        | some s => exact absurd (wf.bound x s hs) hx
      have hfar : ¬busy.Below 1 x := by
        intro hb
        obtain ⟨s, hs⟩ := wf.find?_of_below hb
        rw [hnone] at hs
        cases hs
      rw [if_neg hfar, List.count_eq_zero]
      have hlisted : ∀ y ∈ [3, 2], y < 4 := by decide
      exact fun hmem => hx (hlisted x hmem)
  have hfree : ∀ a as, busy.Below a 1 → a ≠ 1 → busy.find? a = some as → as.marked = false := by
    intro a as hb hne has
    obtain rfl : a = root := Nat.lt_one_iff.1 (Nat.lt_of_le_of_ne (wf.le_of_below hb) hne)
    cases has
    rfl
  obtain ⟨heq, hgone, -⟩ := h.release_commutes (show busy.find? 1 = some _ from rfl) (by decide) hfree howners
  exact ⟨h, howners, heq, hgone⟩

end ScopeTree

end TreeScript
