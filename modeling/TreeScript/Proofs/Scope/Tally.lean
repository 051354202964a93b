import Mathlib.Data.Multiset.Count
import TreeScript.Proofs.Scope.Tidy

/-!
# Pending tasks are counted

`t.Tallies owners` says that the scopes of `t` count the tasks that have not ended: `owners` has the
owner of each of them, as often as it owns one. All owners are registered, since a scope is removed
only where no task is pending below it, so a count never falls below zero.

The end of a task is taken apart: it is counted off (`discount`), and then the scopes that wait for
nothing are torn down (`tearDown`). Between the two, a marked scope may wait for no task.

* `Tallies.create`, `release`, `beginTask`, `discount`, `tearDown`: each operation keeps the tally,
  and no old id comes back (`Ages`).
* `Counts.hasPending_iff`: tasks are pending below a scope if it is above one of the owners.
* `Tallies.find?_tearDown`: the teardown leaves no marked scope above the owner, unless it is above
  the owner of another task.
-/

namespace TreeScript

namespace ScopeTree

variable {t u : ScopeTree} {a id owner x : ScopeId} {s : Scope} {owners : Multiset ScopeId}

/-! ## Counts -/

/-- Each scope counts the tasks that it owns, and all owners are there. -/
structure Counts (t : ScopeTree) (owners : Multiset ScopeId) : Prop where
  there : ∀ x ∈ owners, ∃ s, t.find? x = some s
  pending : ∀ x s, t.find? x = some s → s.pending = owners.count x

namespace Counts

theorem initial : ScopeTree.initial.Counts 0 := by
  refine ⟨fun x hx => absurd hx (Multiset.notMem_zero x), fun x s hs => ?_⟩
  rw [eq_fresh_of_find?_initial hs]
  rfl

theorem pos (h : t.Counts owners) (hx : x ∈ owners) : ∃ s, t.find? x = some s ∧ 0 < s.pending := by
  obtain ⟨s, hs⟩ := h.there x hx
  refine ⟨s, hs, ?_⟩
  rw [h.pending x s hs]
  exact Multiset.count_pos.2 hx

theorem hasPending_iff (h : t.Counts owners) (wf : t.WellFormed) :
    t.hasPending a ↔ ∃ x ∈ owners, t.Below a x := by
  rw [wf.hasPending_iff]
  constructor
  · rintro ⟨x, s, hb, hs, hpos⟩
    rw [h.pending x s hs] at hpos
    exact ⟨x, Multiset.count_pos.1 hpos, hb⟩
  · rintro ⟨x, hx, hb⟩
    obtain ⟨s, hs, hpos⟩ := h.pos hx
    exact ⟨x, s, hb, hs, hpos⟩

/-- Where the same scopes are there and their counts stay. -/
theorem of_links (h : t.Counts owners) (hlinks : SameLinks t u)
    (hpending : ∀ x s', u.find? x = some s' → ∃ s, t.find? x = some s ∧ s'.pending = s.pending) :
    u.Counts owners := by
  refine ⟨fun x hx => ?_, fun x s' hs' => ?_⟩
  · obtain ⟨s, hs⟩ := h.there x hx
    obtain ⟨s', hs', -⟩ := hlinks.find? hs
    exact ⟨s', hs'⟩
  · obtain ⟨s, hs, heq⟩ := hpending x s' hs'
    rw [heq]
    exact h.pending x s hs

/-- No owner is below a scope where no task is pending. -/
theorem trim {l : List ScopeId} (h : t.Counts owners) (wf : t.WellFormed) (ht : Trimmed l t u)
    (hidle : ∀ r ∈ l, ¬t.hasPending r) : u.Counts owners := by
  refine ⟨fun x hx => ?_, fun x s' hs' => ?_⟩
  · obtain ⟨s, hs⟩ := h.there x hx
    have hout : ∀ r ∈ l, ¬t.Below r x := fun r hr hb =>
      hidle r hr ((h.hasPending_iff wf).2 ⟨x, hx, hb⟩)
    obtain ⟨s', hs', -⟩ := ht.kept x s hs hout
    exact ⟨s', hs'⟩
  · obtain ⟨s, hs, -, -, heq, -⟩ := ht.find?_before hs'
    rw [heq]
    exact h.pending x s hs

theorem discount (h : t.Counts (owner ::ₘ owners)) : (t.discount owner).Counts owners := by
  have hlinks := t.sameLinks_discount owner
  refine ⟨fun x hx => ?_, fun x s' hs' => ?_⟩
  · obtain ⟨s, hs⟩ := h.there x (Multiset.mem_cons_of_mem hx)
    exact ⟨_, find?_discount owner hs⟩
  · obtain ⟨s, hs, -⟩ := hlinks.symm.find? hs'
    rw [find?_discount owner hs] at hs'
    cases hs'
    have hpending := h.pending x s hs
    rw [Multiset.count_cons] at hpending
    dsimp only
    by_cases hx : owner = x
    · rw [if_pos hx.symm] at hpending
      rw [if_pos hx]
      omega
    · rw [if_neg (Ne.symm hx)] at hpending
      rw [if_neg hx]
      omega

theorem beginTask {c : Scope} (h : t.Counts owners) (hid : t.find? id = some c) :
    (t.modify id fun s => { s with pending := s.pending + 1 }).Counts (id ::ₘ owners) := by
  refine ⟨fun x hx => ?_, fun x s' hs' => ?_⟩
  · have hold : ∃ s, t.find? x = some s := by
      rcases Multiset.mem_cons.1 hx with rfl | hx
      · exact ⟨c, hid⟩
      · exact h.there x hx
    obtain ⟨s, hs⟩ := hold
    rw [find?_modify, hs]
    split <;> exact ⟨_, rfl⟩
  · rw [find?_modify] at hs'
    rw [Multiset.count_cons]
    by_cases hx : id = x
    · subst hx
      rw [if_pos rfl, hid] at hs'
      cases hs'
      have hpending := h.pending id c hid
      rw [if_pos rfl, ← hpending]
    · rw [if_neg hx] at hs'
      have hpending := h.pending x s' hs'
      rw [if_neg (Ne.symm hx)]
      omega

end Counts

/-! ## Scopes do not come back -/

/-- The tree `u` comes later than `t`: a scope of `u` is one of `t`, where it was before, or its id is
new. -/
structure Ages (t u : ScopeTree) : Prop where
  next : t.nextId ≤ u.nextId
  origin : ∀ x s', u.find? x = some s' →
    t.nextId ≤ x ∨ ∃ s, t.find? x = some s ∧ s'.parent = s.parent

theorem Thins.ages (h : t.Thins u) : t.Ages u :=
  ⟨Nat.le_of_eq h.next.symm, fun x s' hs' => .inr (h.kept x s' hs')⟩

namespace Ages

theorem refl (t : ScopeTree) : t.Ages t := ⟨Nat.le_refl _, fun _ s' hs' => .inr ⟨s', hs', rfl⟩⟩

theorem trans {v : ScopeTree} (h : t.Ages u) (h' : u.Ages v) : t.Ages v := by
  refine ⟨Nat.le_trans h.next h'.next, fun x s' hs' => ?_⟩
  rcases h'.origin x s' hs' with hx | ⟨s, hs, hparent⟩
  · exact .inl (Nat.le_trans h.next hx)
  · exact (h.origin x s hs).imp_right fun ⟨r, hr, hr'⟩ => ⟨r, hr, hparent.trans hr'⟩

theorem find?_eq_none (h : t.Ages u) (hlt : x < t.nextId) (hnone : t.find? x = none) :
    u.find? x = none := by
  cases hu : u.find? x with
  | none => rfl
  | some s' =>
    rcases h.origin x s' hu with hx | ⟨s, hs, -⟩
    · exact absurd hlt (Nat.not_lt.2 hx)
    · rw [hnone] at hs
      cases hs

/-- A scope that is still there is below the same ones. -/
theorem below (h : t.Ages u) (wf : t.WellFormed) (wf' : u.WellFormed) (hb : t.Below a x)
    (hx : ∃ s', u.find? x = some s') : u.Below a x := by
  revert hx
  refine wf.below_induction (motive := fun x => (∃ s', u.find? x = some s') → u.Below a x)
    (fun _ _ ⟨_, hs'⟩ => wf'.below_refl hs') (fun x s p hs hp _ ih ⟨s', hs'⟩ => ?_) hb
  rcases h.origin x s' hs' with hnew | ⟨r, hr, hparent⟩
  · exact absurd (wf.bound x s hs) (Nat.not_lt.2 hnew)
  · rw [hs] at hr
    cases hr
    obtain ⟨ps, hps, -⟩ := wf'.find?_parent hs' (hparent.trans hp)
    exact wf'.below_step hs' (hparent.trans hp) (ih ⟨ps, hps⟩)

end Ages

/-! ## Operations -/

/-- Removes the scopes above `owner` that are marked and wait for nothing. -/
def tearDown (t : ScopeTree) (owner : ScopeId) : ScopeTree := (t.ready owner).foldl discard t

theorem endTask_eq_tearDown (t : ScopeTree) (owner : ScopeId) :
    t.endTask owner = (t.discount owner).tearDown owner := rfl

/-- The scopes count the tasks that they own, and the root was not released. -/
structure Tallies (t : ScopeTree) (owners : Multiset ScopeId) : Prop extends Counts t owners, Rooted t

namespace Tallies

theorem initial : ScopeTree.initial.Tallies 0 := ⟨.initial, .initial⟩

theorem same (h : t.Tallies owners) (hsame : t.SamePlaces u) : u.Tallies owners ∧ t.Ages u := by
  obtain ⟨hrooted, hleft⟩ := h.toRooted.same hsame
  refine ⟨⟨h.of_links hsame.sameLinks fun x s' hs' => ?_, hrooted⟩, hleft.ages⟩
  obtain ⟨s, hs, hplace⟩ := hsame.symm.find? hs'
  exact ⟨s, hs, (congrArg Scope.Place.pending hplace).symm⟩

theorem create {parent : ScopeId} (h : t.Tallies owners) (hc : t.create parent = .ok (id, u)) :
    u.Tallies owners ∧ t.Ages u := by
  have wf := h.wellFormed
  obtain ⟨rfl, ps, hp, hcreated⟩ := wf.created_of_create hc
  have hnew : t.nextId ∉ owners := fun hx => by
    obtain ⟨s, hs⟩ := h.there _ hx
    exact Nat.lt_irrefl _ (wf.bound _ s hs)
  refine ⟨⟨⟨fun x hx => ?_, fun x s' hs' => ?_⟩, h.toRooted.create hc⟩,
    Nat.le_of_lt (Nat.lt_of_lt_of_eq (Nat.lt_succ_self _) hcreated.next.symm), fun x s' hs' => ?_⟩
  · obtain ⟨s, hs⟩ := h.there x hx
    obtain ⟨s', hs', -⟩ := hcreated.find?_old wf hp hs
    exact ⟨s', hs'⟩
  · rcases hcreated.find?_cases wf hp hs' with ⟨rfl, rfl⟩ | ⟨s, hs, heq⟩
    · exact (Multiset.count_eq_zero.2 hnew).symm
    · rw [heq]
      exact h.pending x s hs
  · rcases hcreated.find?_cases wf hp hs' with ⟨rfl, -⟩ | ⟨s, hs, heq⟩
    · exact .inl (Nat.le_refl _)
    · exact .inr ⟨s, hs, by rw [heq]⟩

/-- Idle scopes can be taken out. -/
theorem trim {l : List ScopeId} (h : t.Tallies owners) (wf' : u.WellFormed) (ht : Trimmed l t u)
    (hidle : ∀ r ∈ l, ¬t.hasPending r) : u.Tallies owners ∧ t.Ages u := by
  obtain ⟨hrooted, hleft⟩ := h.toRooted.trimmed wf' ht
  exact ⟨⟨h.toCounts.trim h.wellFormed ht hidle, hrooted⟩, hleft.ages⟩

theorem release {r : Release} (h : t.Tallies owners) (hr : t.release id = .ok (r, u)) :
    u.Tallies owners ∧ t.Ages u := by
  have wf := h.wellFormed
  obtain ⟨hrooted, hleft⟩ := h.toRooted.release hr
  obtain ⟨s, p, hs, hp, ⟨-, rfl⟩ | ⟨hidle, wf', ht⟩⟩ := wf.marked_or_trimmed hr
  · refine ⟨⟨h.of_links (sameLinks_mark t id s) fun x s' hs' => ?_, hrooted⟩, hleft.ages⟩
    obtain ⟨xs, hxs, hpending, -⟩ := find?_of_mark hs hp (Nat.ne_of_lt (wf.parent_lt hs hp)) hs'
    exact ⟨xs, hxs, hpending⟩
  · refine h.trim wf' ht fun a ha => ?_
    rw [List.mem_singleton.1 ha]
    exact hidle

theorem beginTask (h : t.Tallies owners) (hb : t.beginTask id = .ok u) :
    u.Tallies (id ::ₘ owners) ∧ t.Ages u := by
  obtain ⟨hrooted, hleft⟩ := h.toRooted.beginTask hb
  obtain ⟨c, hid, hb⟩ := find?_of_get_bind hb
  cases hb
  exact ⟨⟨h.toCounts.beginTask hid, hrooted⟩, hleft.ages⟩

theorem discount (h : t.Tallies (owner ::ₘ owners)) :
    (t.discount owner).Tallies owners ∧ t.Ages (t.discount owner) := by
  obtain ⟨hrooted, hleft⟩ := h.toRooted.discount owner
  exact ⟨⟨h.toCounts.discount, hrooted⟩, hleft.ages⟩

/-- The root stays, since it is not marked. -/
theorem trimmed_tearDown (h : t.Tallies owners) (owner : ScopeId) :
    (t.tearDown owner).WellFormed ∧ Trimmed (t.ready owner) t (t.tearDown owner) := by
  have hroot : ∀ r ∈ t.ready owner, r ≠ ScopeTree.root := by
    rintro r hr rfl
    obtain ⟨-, ⟨s, hs, hm⟩, -⟩ := mem_ready.1 hr
    exact Bool.false_ne_true ((h.root s hs).symm.trans hm)
  obtain ⟨wf', ht, -⟩ := h.wellFormed.foldl_discard hroot
  exact ⟨wf', ht⟩

theorem tearDown (h : t.Tallies owners) (owner : ScopeId) :
    (t.tearDown owner).Tallies owners ∧ t.Ages (t.tearDown owner) := by
  obtain ⟨wf', ht⟩ := h.trimmed_tearDown owner
  exact h.trim wf' ht fun a ha => (mem_ready.1 ha).2.2

/-- A marked scope above the owner that waits for no task is gone after the teardown. -/
theorem find?_tearDown (h : t.Tallies owners) (ha : t.find? a = some s) (hmarked : s.marked = true)
    (hbelow : t.Below a owner) (hothers : ∀ x ∈ owners, ¬t.Below a x) :
    (t.tearDown owner).find? a = none := by
  have wf := h.wellFormed
  have hidle : ¬t.hasPending a := by
    intro hpend
    obtain ⟨x, hx, hb⟩ := (h.hasPending_iff wf).1 hpend
    exact hothers x hx hb
  have hready : a ∈ t.ready owner := mem_ready.2 ⟨hbelow, ⟨s, ha, hmarked⟩, hidle⟩
  exact (h.trimmed_tearDown owner).2.gone a hready a (wf.below_refl ha)

end Tallies

end ScopeTree

end TreeScript
