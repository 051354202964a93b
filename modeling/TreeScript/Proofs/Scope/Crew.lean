import Mathlib.Data.Multiset.Bind
import Mathlib.Data.Multiset.Filter
import TreeScript.Proofs.Scope.Tally

/-!
# Scopes in use

Several threads share one tree of scopes: the main program, and the tasks that run beside it. A
`Runner` is a thread as the scopes see it, a stack of entered scopes above the scope it started
from. A `Crew` is the tree with the runners that have not finished, and `Crew.Step` is one operation
of one of them on the tree; the steps of different runners come in any order.

* `Crew.Sound`: the invariant. Stacks are chains of registered scopes that no one else has entered, each
  scope counts the tasks that started from it, and the scopes that no stack holds are those that were
  released; each of them waits for a task below it.
* `Sound.step`: each step keeps the invariant. Scopes are removed only where no runner is
  (`Tracked.not_below_of_idle`): a runner below a scope has entered it or counts as a task below it.
* `Reachable.in_use_registered`: what a runner uses is registered up to the root, so no operation of
  a runner fails.
* `Reachable.no_leak`: a scope that no runner has entered waits for a task, and when all runners
  have finished, only the root is left.
-/

namespace TreeScript

/-- A thread as the scopes see it: the scope it started from, and the scopes that it has entered and
not left, the innermost first. -/
structure Runner where
  isTask : Bool
  base : ScopeId
  entered : List ScopeId

/-- The scope that a runner is in. -/
def Runner.top (r : Runner) : ScopeId := r.entered.headD r.base

/-- The scopes, and the runners that have not finished. -/
structure Crew where
  scopes : ScopeTree
  live : Multiset Runner

namespace Crew

/-- The main program, before it has entered a scope. -/
def initial : Crew := ⟨.initial, {⟨false, ScopeTree.root, []⟩}⟩

/-- One operation of one runner. -/
inductive Step : Crew → Crew → Prop
  /-- A runner makes a scope below the one it is in, and enters it. -/
  | enter {t t' : ScopeTree} {r : Runner} {others : Multiset Runner} {id : ScopeId}
      (made : t.create r.top = .ok (id, t')) :
      Step ⟨t, r ::ₘ others⟩ ⟨t', { r with entered := id :: r.entered } ::ₘ others⟩
  /-- A runner leaves the scope that it entered last, and releases it. -/
  | leave {t t' : ScopeTree} {r : Runner} {others : Multiset Runner} {id : ScopeId}
      {outer : List ScopeId} {outcome : Release} (inside : r.entered = id :: outer)
      (released : t.release id = .ok (outcome, t')) :
      Step ⟨t, r ::ₘ others⟩ ⟨t', { r with entered := outer } ::ₘ others⟩
  /-- A runner starts a task in the scope it is in. -/
  | spawn {t t' : ScopeTree} {r : Runner} {others : Multiset Runner}
      (begun : t.beginTask r.top = .ok t') :
      Step ⟨t, r ::ₘ others⟩ ⟨t', ⟨true, r.top, []⟩ ::ₘ r ::ₘ others⟩
  /-- A task that has left all its scopes ends. -/
  | complete {t : ScopeTree} {r : Runner} {others : Multiset Runner} (task : r.isTask = true)
      (outside : r.entered = []) :
      Step ⟨t, r ::ₘ others⟩ ⟨t.endTask r.base, others⟩
  /-- The main program ends. -/
  | finish {t : ScopeTree} {r : Runner} {others : Multiset Runner} (main : r.isTask = false)
      (outside : r.entered = []) :
      Step ⟨t, r ::ₘ others⟩ ⟨t, others⟩

/-- The crews that steps lead to, in any order. -/
inductive Reachable : Crew → Prop
  | initial : Reachable initial
  | step {c c' : Crew} (h : Reachable c) (h' : Step c c') : Reachable c'

/-- All entered scopes, each as often as it is entered. -/
def entered (live : Multiset Runner) : Multiset ScopeId :=
  live.bind fun r => (r.entered : Multiset ScopeId)

/-- The scopes that tasks started from. -/
def owners (live : Multiset Runner) : Multiset ScopeId :=
  (live.filter fun r => r.isTask = true).map Runner.base

end Crew

namespace ScopeTree

variable {t t' : ScopeTree} {a x y base : ScopeId} {s : Scope} {l : List ScopeId}

/-- The scope `a` is reached from `x` by going to parents. -/
inductive Ancestor (t : ScopeTree) : ScopeId → ScopeId → Prop
  | parent {x p : ScopeId} {s : Scope} (h : t.find? x = some s) (hp : s.parent = some p) :
      Ancestor t p x
  | step {a x p : ScopeId} {s : Scope} (h : t.find? x = some s) (hp : s.parent = some p)
      (ha : Ancestor t a p) : Ancestor t a x

theorem WellFormed.find?_ancestor (wf : t.WellFormed) (h : t.Ancestor a x) :
    ∃ s, t.find? a = some s := by
  induction h with
  | parent hs hp =>
    obtain ⟨ps, hps, -⟩ := wf.find?_parent hs hp
    exact ⟨ps, hps⟩
  | step _ _ _ ih => exact ih

/-- The scopes of `l` lead upwards from its head, each to the next one, and the last to `base`. -/
def Linked (t : ScopeTree) (base : ScopeId) : List ScopeId → Prop
  | [] => ∃ s, t.find? base = some s
  | x :: l => (∃ s, t.find? x = some s ∧ s.parent = some (l.headD base)) ∧ t.Linked base l

namespace Linked

theorem find?_base (h : t.Linked base l) : ∃ s, t.find? base = some s := by
  induction l with
  | nil => exact h
  | cons x l ih => exact ih h.2

theorem find?_mem (h : t.Linked base l) (hx : x ∈ l) : ∃ s p, t.find? x = some s ∧
    s.parent = some p ∧ (p = base ∨ p ∈ l) := by
  induction l with
  | nil => cases hx
  | cons y l ih =>
    rcases List.mem_cons.1 hx with rfl | hx
    · obtain ⟨⟨s, hs, hp⟩, -⟩ := h
      refine ⟨s, _, hs, hp, ?_⟩
      cases l with
      | nil => exact .inl rfl
      | cons z l => exact .inr (by simp)
    · obtain ⟨s, p, hs, hp, hpl⟩ := ih h.2 hx
      exact ⟨s, p, hs, hp, hpl.imp_right (List.mem_cons_of_mem _)⟩

theorem find?_top (h : t.Linked base l) : ∃ s, t.find? (l.headD base) = some s := by
  cases l with
  | nil => exact h
  | cons x l =>
    obtain ⟨⟨s, hs, -⟩, -⟩ := h
    exact ⟨s, hs⟩

/-- A stack stays linked where its scopes stay and keep their parents. -/
theorem mono (h : t.Linked base l)
    (hkeep : ∀ x s, (x = base ∨ x ∈ l) → t.find? x = some s →
      ∃ s', t'.find? x = some s' ∧ s'.parent = s.parent) : t'.Linked base l := by
  induction l with
  | nil =>
    obtain ⟨s, hs⟩ := h
    obtain ⟨s', hs', -⟩ := hkeep base s (.inl rfl) hs
    exact ⟨s', hs'⟩
  | cons x l ih =>
    obtain ⟨⟨s, hs, hp⟩, hl⟩ := h
    obtain ⟨s', hs', hp'⟩ := hkeep x s (.inr List.mem_cons_self) hs
    exact ⟨⟨s', hs', hp'.trans hp⟩,
      ih hl fun y s hy => hkeep y s (hy.imp_right (List.mem_cons_of_mem _))⟩

theorem of_links (h : t.Linked base l) (hl : SameLinks t t') : t'.Linked base l :=
  h.mono fun x s _ hs => by
    obtain ⟨s', hs', hp, -⟩ := hl.find? hs
    exact ⟨s', hs', hp⟩

/-- A scope above some scope of the stack is on the stack, or it is above the base. -/
theorem below_or_mem (h : t.Linked base l) (wf : t.WellFormed) (hy : y = base ∨ y ∈ l)
    (hb : t.Below a y) : t.Below a base ∨ a ∈ l := by
  refine wf.below_induction (motive := fun y => (y = base ∨ y ∈ l) → t.Below a base ∨ a ∈ l)
    (fun s hs hy => ?_) (fun x s p hs hp hb ih hx => ?_) hb hy
  · rcases hy with rfl | hy
    · exact .inl (wf.below_refl hs)
    · exact .inr hy
  · rcases hx with rfl | hx
    · exact .inl (wf.below_step hs hp hb)
    · obtain ⟨s', p', hs', hp', hpl⟩ := h.find?_mem hx
      rw [hs] at hs'
      cases hs'
      rw [hp] at hp'
      cases hp'
      exact ih hpl

end Linked

end ScopeTree

namespace Crew

variable {t t' : ScopeTree} {r : Runner} {live others : Multiset Runner} {id x base : ScopeId}
  {s : Scope} {task : Bool}

/-! ## The invariant -/

/-- What a crew keeps of its runners. -/
structure Tracked (t : ScopeTree) (live : Multiset Runner) : Prop extends t.Counts (owners live) where
  main : ∀ r ∈ live, r.isTask = false → r.base = ScopeTree.root
  linked : ∀ r ∈ live, t.Linked r.base r.entered
  disjoint : (entered live).Nodup

/-- The invariant of a crew. -/
structure Sound (c : Crew) : Prop where
  tidy : c.scopes.Tidy
  tracked : Tracked c.scopes c.live
  /-- The scopes that no runner has entered were released. -/
  marked : ∀ x s, c.scopes.find? x = some s → x ≠ ScopeTree.root →
    (s.marked = false ↔ x ∈ entered c.live)

theorem entered_cons (r : Runner) (live : Multiset Runner) :
    entered (r ::ₘ live) = (r.entered : Multiset ScopeId) + entered live := Multiset.cons_bind ..

theorem entered_cons_outside (task : Bool) (base : ScopeId) :
    entered (⟨task, base, []⟩ ::ₘ live) = entered live := by
  rw [entered_cons, Multiset.coe_nil, Multiset.zero_add]

theorem mem_entered : x ∈ entered live ↔ ∃ r ∈ live, x ∈ r.entered := by
  simp [entered]

theorem owners_cons (stack : List ScopeId) : owners (⟨task, base, stack⟩ ::ₘ live) =
    if task then base ::ₘ owners live else owners live := by
  unfold owners
  cases task <;> simp

theorem mem_owners : x ∈ owners live ↔ ∃ r ∈ live, r.isTask = true ∧ r.base = x := by
  simp [owners, and_assoc]

/-! ## Scopes where no runner is -/

namespace Tracked

/-- Tasks are pending below a scope exactly if a task that has not ended started from there. -/
theorem hasPending_iff_task (h : Tracked t live) (wf : t.WellFormed) :
    t.hasPending x ↔ ∃ r ∈ live, r.isTask = true ∧ t.Below x r.base := by
  rw [h.hasPending_iff wf]
  constructor
  · rintro ⟨y, hy, hb⟩
    obtain ⟨r, hr, htask, rfl⟩ := mem_owners.1 hy
    exact ⟨r, hr, htask, hb⟩
  · rintro ⟨r, hr, htask, hb⟩
    exact ⟨r.base, mem_owners.2 ⟨r, hr, htask, rfl⟩, hb⟩

/-- **No one is below an idle scope.** If no task is pending below a scope and no runner has entered
it, then no runner uses a scope below it. -/
theorem not_below_of_idle (h : Tracked t live) (wf : t.WellFormed) (hroot : x ≠ ScopeTree.root)
    (hidle : ¬t.hasPending x) (hx : x ∉ entered live) :
    ∀ r ∈ live, ∀ y, (y = r.base ∨ y ∈ r.entered) → ¬t.Below x y := by
  intro r hr y hy hb
  rcases (h.linked r hr).below_or_mem wf hy hb with hbase | hmem
  · cases ht : r.isTask with
    | true => exact hidle ((h.hasPending_iff_task wf).2 ⟨r, hr, ht, hbase⟩)
    | false =>
      rw [h.main r hr ht] at hbase
      exact hroot (Nat.le_zero.1 (wf.le_of_below hbase))
  · exact hx (mem_entered.2 ⟨r, hr, hmem⟩)

/-- Idle scopes that no runner has entered can be removed. -/
theorem trim {l : List ScopeId} (h : Tracked t live) (wf : t.WellFormed)
    (ht : ScopeTree.Trimmed l t t')
    (hl : ∀ a ∈ l, a ≠ ScopeTree.root ∧ ¬t.hasPending a ∧ a ∉ entered live) : Tracked t' live := by
  refine ⟨h.toCounts.trim wf ht fun a ha => (hl a ha).2.1, h.main,
    fun r hr => (h.linked r hr).mono fun x s hx hs => ?_, h.disjoint⟩
  obtain ⟨s', hs', hp, -⟩ := ht.kept x s hs fun a ha =>
    h.not_below_of_idle wf (hl a ha).1 (hl a ha).2.1 (hl a ha).2.2 r hr x hx
  exact ⟨s', hs', hp⟩

/-- No runner has entered a scope that is not there. -/
theorem not_mem_entered (h : Tracked t live) (hx : t.find? x = none) : x ∉ entered live := fun hmem => by
  obtain ⟨r, hr, hmem⟩ := mem_entered.1 hmem
  obtain ⟨s, -, hs, -⟩ := (h.linked r hr).find?_mem hmem
  rw [hx] at hs
  cases hs

end Tracked

/-! ## Each step keeps the invariant -/

variable {stack outer : List ScopeId}

/-- The scopes count the tasks. -/
theorem Sound.tallies {c : Crew} (h : Sound c) : c.scopes.Tallies (owners c.live) :=
  ⟨h.tracked.toCounts, h.tidy.toRooted⟩

/-- A scope that a runner enters is on no other stack, since its id is new. -/
theorem Sound.enter (h : Sound ⟨t, ⟨task, base, stack⟩ ::ₘ others⟩)
    (made : t.create (stack.headD base) = .ok (id, t')) :
    Sound ⟨t', ⟨task, base, id :: stack⟩ ::ₘ others⟩ := by
  have wf : t.WellFormed := h.tidy.wellFormed
  have hcounts := (h.tallies.create made).1.toCounts
  obtain ⟨rfl, ps, hps, hc⟩ := wf.created_of_create made
  have hkeep : ∀ x s, t.find? x = some s → ∃ s', t'.find? x = some s' ∧ s'.parent = s.parent :=
    fun x s hs => by
      obtain ⟨s', hs', he, -⟩ := hc.find?_old wf hps hs
      exact ⟨s', hs', by rw [he]⟩
  have hfresh := h.tracked.not_mem_entered (Option.eq_none_iff_forall_ne_some.2 fun s hs =>
    Nat.lt_irrefl _ (wf.bound t.nextId s hs))
  have hentered : entered (⟨task, base, t.nextId :: stack⟩ ::ₘ others) =
      t.nextId ::ₘ entered (⟨task, base, stack⟩ ::ₘ others) := by
    rw [entered_cons, entered_cons, ← Multiset.cons_coe, Multiset.cons_add]
  obtain ⟨hself, hothers⟩ := Multiset.forall_mem_cons.1 h.tracked.linked
  refine ⟨h.tidy.create made, ⟨?_, ?_, Multiset.forall_mem_cons.2 ⟨⟨⟨_, hc.new, rfl⟩,
    hself.mono fun x s _ => hkeep x s⟩, fun r hr => (hothers r hr).mono fun x s _ => hkeep x s⟩, ?_⟩,
    fun x s' hs' hroot => ?_⟩
  · rw [owners_cons] at hcounts ⊢
    exact hcounts
  · exact Multiset.forall_mem_cons.2 (Multiset.forall_mem_cons.1 h.tracked.main)
  · rw [hentered]
    exact Multiset.nodup_cons.2 ⟨hfresh, h.tracked.disjoint⟩
  · rw [hentered, Multiset.mem_cons]
    rcases hc.find?_cases wf hps hs' with ⟨rfl, rfl⟩ | ⟨s, hs, he⟩
    · exact iff_of_true rfl (.inl rfl)
    · have hne : x ≠ t.nextId := fun hx => Nat.lt_irrefl _ (hx ▸ wf.bound x s hs)
      rw [he, or_iff_right hne]
      exact h.marked x s hs hroot

/-- What is left of a stack is still tracked, and no runner is in the scope that was left. -/
theorem Tracked.drop (h : Tracked t (⟨task, base, id :: outer⟩ ::ₘ others)) :
    Tracked t (⟨task, base, outer⟩ ::ₘ others) ∧ id ∉ entered (⟨task, base, outer⟩ ::ₘ others) ∧
      entered (⟨task, base, id :: outer⟩ ::ₘ others) =
        id ::ₘ entered (⟨task, base, outer⟩ ::ₘ others) := by
  have hentered : entered (⟨task, base, id :: outer⟩ ::ₘ others) =
      id ::ₘ entered (⟨task, base, outer⟩ ::ₘ others) := by
    rw [entered_cons, entered_cons, ← Multiset.cons_coe, Multiset.cons_add]
  have hd := h.disjoint
  rw [hentered, Multiset.nodup_cons] at hd
  obtain ⟨hself, hothers⟩ := Multiset.forall_mem_cons.1 h.linked
  refine ⟨⟨?_, Multiset.forall_mem_cons.2 (Multiset.forall_mem_cons.1 h.main),
    Multiset.forall_mem_cons.2 ⟨hself.2, hothers⟩, hd.2⟩, hd.1, hentered⟩
  have hcounts := h.toCounts
  rw [owners_cons] at hcounts ⊢
  exact hcounts

/-- A scope that is left is removed if no task is pending below it, and marked otherwise. -/
theorem Sound.leave {outcome : Release} (h : Sound ⟨t, ⟨task, base, id :: outer⟩ ::ₘ others⟩)
    (released : t.release id = .ok (outcome, t')) :
    Sound ⟨t', ⟨task, base, outer⟩ ::ₘ others⟩ := by
  have wf : t.WellFormed := h.tidy.wellFormed
  have htidy := h.tidy.release released
  obtain ⟨hleft, hid, hentered⟩ := h.tracked.drop
  have hmarked : ∀ x s, t.find? x = some s → x ≠ ScopeTree.root → x ≠ id →
      (s.marked = false ↔ x ∈ entered (⟨task, base, outer⟩ ::ₘ others)) := fun x s hs hroot hx => by
    have hbefore := h.marked x s hs hroot
    rw [hentered, Multiset.mem_cons, or_iff_right hx] at hbefore
    exact hbefore
  obtain ⟨s, p, hs, hp, ⟨-, rfl⟩ | ⟨hidle, -, ht⟩⟩ := wf.marked_or_trimmed released
  · have hbefore {x : ScopeId} {s' : Scope} (hs' : (t.mark id s).find? x = some s') :=
      ScopeTree.find?_of_mark hs hp (Nat.ne_of_lt (wf.parent_lt hs hp)) hs'
    have hlinks := ScopeTree.sameLinks_mark t id s
    refine ⟨htidy, ⟨hleft.toCounts.of_links hlinks fun x s' hs' => ?_, hleft.main,
      fun r hr => (hleft.linked r hr).of_links hlinks, hleft.disjoint⟩, fun x s' hs' hroot => ?_⟩
    · obtain ⟨xs, hxs, hpending, -⟩ := hbefore hs'
      exact ⟨xs, hxs, hpending⟩
    · obtain ⟨xs, hxs, -, hm⟩ := hbefore hs'
      by_cases hx : x = id
      · exact iff_of_false (Bool.eq_false_iff.not_left.2 (hm.2 (.inl hx))) (hx ▸ hid)
      · rw [← hmarked x xs hxs hroot hx, ← Bool.not_eq_true, ← Bool.not_eq_true, hm, or_iff_right hx]
  · refine ⟨htidy, hleft.trim wf ht fun a ha => ?_, fun x s' hs' hroot => ?_⟩
    · rw [List.mem_singleton.1 ha]
      exact ⟨wf.ne_root hs hp, hidle, hid⟩
    · obtain ⟨xs, hxs, hx, -, -, hm⟩ := ht.find?_before hs'
      rw [hm]
      refine hmarked x xs hxs hroot fun he => ?_
      exact hx id (List.mem_singleton_self _) (he ▸ wf.below_refl hxs)

/-- A task that is started counts in the scope that it starts from, and only there. -/
theorem Sound.spawn (h : Sound ⟨t, r ::ₘ others⟩) (begun : t.beginTask r.top = .ok t') :
    Sound ⟨t', ⟨true, r.top, []⟩ ::ₘ r ::ₘ others⟩ := by
  have htidy := h.tidy.beginTask begun
  have hcounts := (h.tallies.beginTask begun).1.toCounts
  obtain ⟨c, hc, begun⟩ := ScopeTree.find?_of_get_bind begun
  cases begun
  have hlinks := t.sameLinks_modify r.top (f := fun s => { s with pending := s.pending + 1 })
    fun _ => rfl
  obtain ⟨c', hc', -⟩ := hlinks.find? hc
  refine ⟨htidy, ⟨?_, Multiset.forall_mem_cons.2 ⟨by simp, h.tracked.main⟩,
    Multiset.forall_mem_cons.2 ⟨⟨c', hc'⟩, fun q hq => (h.tracked.linked q hq).of_links hlinks⟩, ?_⟩,
    fun x s' hs' hroot => ?_⟩
  · rw [owners_cons, if_pos rfl]
    exact hcounts
  · rw [entered_cons_outside]
    exact h.tracked.disjoint
  · rw [entered_cons_outside]
    obtain ⟨s, hs, rfl | rfl⟩ := ScopeTree.find?_of_modify hs'
    · exact h.marked x s hs hroot
    · exact h.marked x s' hs hroot

/-- A runner that has left all its scopes is not missed. -/
theorem Tracked.rest (h : Tracked t (⟨task, base, []⟩ ::ₘ others)) (hlinks : ScopeTree.SameLinks t t')
    (hcounts : t'.Counts (owners others)) : Tracked t' others := by
  have hd := h.disjoint
  rw [entered_cons_outside] at hd
  exact ⟨hcounts, (Multiset.forall_mem_cons.1 h.main).2,
    fun r hr => ((Multiset.forall_mem_cons.1 h.linked).2 r hr).of_links hlinks, hd⟩

/-- **The last task below a marked scope removes it.** A marked scope that waited for this task
only is above the scope that the task started from, where the end of the task looks for it. -/
theorem Sound.complete (h : Sound ⟨t, ⟨true, base, []⟩ ::ₘ others⟩) :
    Sound ⟨t.endTask base, others⟩ := by
  have hlinks := t.sameLinks_discount base
  obtain ⟨-, ht, -⟩ := h.tidy.wellFormed.endTask base h.tidy.root
  obtain ⟨hd, -⟩ := h.tidy.toRooted.discount base
  have hcounts : (t.discount base).Counts (owners others) := by
    have hcounts := h.tracked.toCounts
    rw [owners_cons, if_pos rfl] at hcounts
    exact hcounts.discount
  have htracked := h.tracked.rest hlinks hcounts
  have hmarked : ∀ x s', (t.discount base).find? x = some s' → x ≠ ScopeTree.root →
      (s'.marked = false ↔ x ∈ entered others) := fun x s' hs' hroot => by
    rw [← entered_cons_outside true base]
    obtain ⟨s, hs, rfl | rfl⟩ := ScopeTree.find?_of_modify hs'
    · exact h.marked x s hs hroot
    · exact h.marked x s' hs hroot
  refine ⟨h.tidy.endTask base, htracked.trim hd.wellFormed ht fun a ha => ?_, fun x s' hs' hroot => ?_⟩
  · obtain ⟨-, ⟨as, has, hm⟩, hidle⟩ := ScopeTree.mem_ready.1 ha
    have hroot : a ≠ ScopeTree.root := by
      rintro rfl
      exact Bool.false_ne_true ((hd.root as has).symm.trans hm)
    refine ⟨hroot, hidle, fun hmem => ?_⟩
    exact Bool.false_ne_true (((hmarked a as has hroot).2 hmem).symm.trans hm)
  · obtain ⟨s, hs, -, -, -, hm⟩ := ht.find?_before hs'
    rw [hm]
    exact hmarked x s hs hroot

theorem Sound.finish (h : Sound ⟨t, ⟨false, base, []⟩ ::ₘ others⟩) : Sound ⟨t, others⟩ := by
  have hcounts := h.tracked.toCounts
  rw [owners_cons, if_neg Bool.false_ne_true] at hcounts
  refine ⟨h.tidy, h.tracked.rest (fun _ => rfl) hcounts, fun x s hs hroot => ?_⟩
  rw [← entered_cons_outside false base]
  exact h.marked x s hs hroot

theorem Sound.step {c c' : Crew} (h : Sound c) (hs : Step c c') : Sound c' := by
  cases hs with
  | enter made => exact h.enter made
  | @leave t t' r others id outer outcome inside released =>
    obtain ⟨task, base, stack⟩ := r
    cases inside
    exact h.leave released
  | spawn begun => exact h.spawn begun
  | @complete t r others task outside =>
    obtain ⟨isTask, base, stack⟩ := r
    cases task
    cases outside
    exact h.complete
  | @finish t r others main outside =>
    obtain ⟨isTask, base, stack⟩ := r
    cases main
    cases outside
    exact h.finish

theorem sound_initial : Sound initial := by
  have hf := ScopeTree.find?_initial
  refine ⟨ScopeTree.tidy_initial, ⟨?_, ?_, ?_, ?_⟩, fun x s hs hroot => ?_⟩
  · rw [show owners initial.live = 0 from rfl]
    exact .initial
  · simp [initial]
  · simp [initial, ScopeTree.Linked, hf]
  · simp [initial, entered]
  · rw [show initial.scopes = ScopeTree.initial from rfl, hf, if_neg hroot] at hs
    cases hs

/-- **The invariant holds in every reachable crew.** -/
theorem Reachable.sound {c : Crew} (h : Reachable c) : Sound c := by
  induction h with
  | initial => exact sound_initial
  | step _ hs ih => exact ih.step hs

/-! ## Safety and progress -/

/-- A main program leaves the scope in which it started a task, while the task goes on in a scope of
its own; then the two finish. -/
theorem reachable_released_early : ∃ t s t', Reachable ⟨t, {⟨true, 1, [2]⟩, ⟨false, 0, []⟩}⟩ ∧
    t.find? 1 = some s ∧ s.marked = true ∧ Reachable ⟨t', 0⟩ := by
  have h₁ := Reachable.initial.step (@Step.enter _ _ ⟨false, 0, []⟩ 0 1 rfl)
  have h₂ := h₁.step (.spawn rfl)
  rw [Multiset.cons_swap] at h₂
  have h₃ := h₂.step (@Step.leave _ _ _ _ 1 [] .deferred rfl rfl)
  rw [Multiset.cons_swap] at h₃
  have h₄ := h₃.step (@Step.enter _ _ ⟨true, 1, []⟩ _ 2 rfl)
  have h₅ := h₄.step (@Step.leave _ _ _ _ 2 [] .removed rfl rfl)
  have h₆ := h₅.step (.complete rfl rfl)
  exact ⟨_, _, _, h₄, rfl, rfl, h₆.step (.finish rfl rfl)⟩

/-- **What is in use is registered.** Whatever the order of steps, each scope that a runner has
entered or started from is registered with all its ancestors. So a runner can always make a scope,
start a task and leave its scope, and when a task ends, each removal that its end calls for
succeeds. -/
theorem Reachable.in_use_registered {c : Crew} (h : Reachable c) :
    (∀ r ∈ c.live, ∀ x ∈ r.base :: r.entered,
      c.scopes.contains x ∧ ∀ a, c.scopes.Ancestor a x → c.scopes.contains a) ∧
    ∀ r ∈ c.live,
      (∃ id t', c.scopes.create r.top = .ok (id, t')) ∧
      (∃ t', c.scopes.beginTask r.top = .ok t') ∧
      (∀ id outer, r.entered = id :: outer →
        ∃ outcome t', c.scopes.release id = .ok (outcome, t')) ∧
      (r.isTask = true → r.entered = [] →
        ((c.scopes.discount r.base).ready r.base).foldlM (fun t id => t.remove id)
          (c.scopes.discount r.base) = .ok (c.scopes.endTask r.base)) := by
  have htr := h.sound.tracked
  have wf := h.sound.tidy.wellFormed
  refine ⟨fun r hr x hx => ⟨?_, fun a ha => ?_⟩, fun r hr => ⟨?_, ?_, fun id outer hin => ?_, ?_⟩⟩
  · rcases List.mem_cons.1 hx with rfl | hx
    · exact ScopeTree.contains_iff.2 (htr.linked r hr).find?_base
    · obtain ⟨s, -, hs, -⟩ := (htr.linked r hr).find?_mem hx
      exact ScopeTree.contains_iff.2 ⟨s, hs⟩
  · exact ScopeTree.contains_iff.2 (wf.find?_ancestor ha)
  · obtain ⟨s, hs⟩ := (htr.linked r hr).find?_top
    obtain ⟨t', ht', -⟩ := wf.create hs
    exact ⟨_, t', ht'⟩
  · obtain ⟨s, hs⟩ := (htr.linked r hr).find?_top
    exact ⟨_, ScopeTree.beginTask_of_find? hs⟩
  · obtain ⟨s, p, hs, hp, -⟩ := (htr.linked r hr).find?_mem (hin ▸ List.mem_cons_self)
    by_cases hpend : c.scopes.hasPending id
    · exact ⟨_, _, ScopeTree.release_of_pending hs (wf.ne_root hs hp) hpend⟩
    · obtain ⟨ps, hps, -⟩ := wf.find?_parent hs hp
      obtain ⟨t', ht', -⟩ := wf.release_of_idle hs hp hps hpend
      exact ⟨_, t', ht'⟩
  · exact fun _ _ => (wf.endTask r.base h.sound.tidy.root).2.2

/-- The task and its scopes after the main program has left. -/
theorem in_use_registered_released_early :
    ∃ t, Reachable ⟨t, {⟨true, 1, [2]⟩, ⟨false, 0, []⟩}⟩ ∧ t.contains 1 ∧ t.contains 2 ∧
      (∃ id t', t.create 2 = .ok (id, t')) ∧ ∃ outcome t', t.release 2 = .ok (outcome, t') := by
  obtain ⟨t, -, -, h, -⟩ := reachable_released_early
  obtain ⟨hreg, hops⟩ := h.in_use_registered
  have htask : (⟨true, 1, [2]⟩ : Runner) ∈ ({⟨true, 1, [2]⟩, ⟨false, 0, []⟩} : Multiset Runner) :=
    Multiset.mem_cons_self _ _
  obtain ⟨hcreate, -, hrelease, -⟩ := hops _ htask
  exact ⟨t, h, (hreg _ htask 1 (by simp)).1, (hreg _ htask 2 (by simp)).1, hcreate,
    hrelease 2 [] rfl⟩

/-- **No scope leaks.** Whatever the order of steps, a scope other than the root is on the stack of
a runner, or it is marked and waits for a task below it. When all runners have finished, the root is
the only scope. -/
theorem Reachable.no_leak {c : Crew} (h : Reachable c) :
    (∀ x s, c.scopes.find? x = some s → x ≠ ScopeTree.root →
      (∃ r ∈ c.live, x ∈ r.entered) ∨ (s.marked = true ∧ c.scopes.hasPending x)) ∧
    (∀ x s, c.scopes.find? x = some s → s.marked = true → c.scopes.hasPending x) ∧
    (∀ x, c.scopes.hasPending x ↔ ∃ r ∈ c.live, r.isTask = true ∧ c.scopes.Below x r.base) ∧
    (c.live = 0 → ∀ x, c.scopes.contains x ↔ x = ScopeTree.root) := by
  obtain ⟨htidy, htr, hmarked⟩ := h.sound
  have hacc : ∀ x s, c.scopes.find? x = some s → x ≠ ScopeTree.root →
      (∃ r ∈ c.live, x ∈ r.entered) ∨ (s.marked = true ∧ c.scopes.hasPending x) := fun x s hs hroot => by
    cases hm : s.marked with
    | false => exact .inl (mem_entered.1 ((hmarked x s hs hroot).1 hm))
    | true => exact .inr ⟨rfl, htidy.waiting x s hs hm⟩
  have hpending (x : ScopeId) := htr.hasPending_iff_task htidy.wellFormed (x := x)
  refine ⟨hacc, htidy.waiting, hpending, fun hlive x => ⟨fun hx => ?_, ?_⟩⟩
  · obtain ⟨s, hs⟩ := ScopeTree.contains_iff.1 hx
    refine Classical.byContradiction fun hroot => ?_
    rcases hacc x s hs hroot with ⟨r, hr, -⟩ | ⟨-, hp⟩
    · rw [hlive] at hr
      exact Multiset.notMem_zero r hr
    · obtain ⟨r, hr, -⟩ := (hpending x).1 hp
      rw [hlive] at hr
      exact Multiset.notMem_zero r hr
  · rintro rfl
    obtain ⟨s, hs, -⟩ := htidy.wellFormed.root
    exact ScopeTree.contains_iff.2 ⟨s, hs⟩

/-- The scope that the main program has left waits for the task, and is gone in the end. -/
theorem no_leak_released_early :
    ∃ t s t', Reachable ⟨t, {⟨true, 1, [2]⟩, ⟨false, 0, []⟩}⟩ ∧ t.find? 1 = some s ∧
      s.marked = true ∧ t.hasPending 1 ∧ Reachable ⟨t', 0⟩ ∧
      ∀ x, t'.contains x ↔ x = ScopeTree.root := by
  obtain ⟨t, s, t', h, hs, hm, hend⟩ := reachable_released_early
  exact ⟨t, s, t', h, hs, hm, h.no_leak.2.1 1 s hs hm, hend, hend.no_leak.2.2.2 rfl⟩

end Crew

end TreeScript
