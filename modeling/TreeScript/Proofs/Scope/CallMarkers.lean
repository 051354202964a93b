import Mathlib.Logic.Relation
import TreeScript.Proofs.Scope.Crew
import TreeScript.Proofs.Scope.Markers

/-!
# Markers across a call

A call makes a scope `c` below the scope `k` of its caller, runs the body there, clears the markers
of the function's declaration in `c` and releases `c`. Tasks that the body started may go on below
`c` after that, and `c` and the released scopes below it then stay until the last of them has ended.
`CallRun` is such a call with all that happens below `c`, up to the removal of `c`.

* `Confined k c t t'`: what is not below `c` keeps its place, and the caller its markers as long as
  `c` is there. Every operation below `c` is confined (`Calling.work`, `Calling.marking`).
* `Holds t k c n`: the marker `n` is held by the caller or below `c`. Removing and releasing scopes
  below `c` moves markers up, but none of them gets lost (`Calling.holds_remove`,
  `Calling.holds_mark`).
* `CallRun.markers`: which markers the caller has in the end. It gains those that `c` held when they
  were cleared, without those of the declaration, and all that were held further below at that time.
* `late_end_leaks`: a marker of the declaration does get to the caller if a task ends late.
-/

namespace TreeScript

namespace ScopeTree

open Relation (ReflTransGen)

variable {t t' u : ScopeTree} {k c x y a p : ScopeId} {s ps : Scope} {n : Nat}

/-! ## What happens below a scope -/

/-- One operation on the scopes or the tasks below `c`; `c` itself is not released. -/
inductive Work (c : ScopeId) (t : ScopeTree) : ScopeTree → Prop
  | create {t' : ScopeTree} {x id : ScopeId} (inside : t.Below c x)
      (made : t.create x = .ok (id, t')) : Work c t t'
  | release {t' : ScopeTree} {x : ScopeId} {outcome : Release} (inside : t.Below c x)
      (inner : x ≠ c) (released : t.release x = .ok (outcome, t')) : Work c t t'
  | beginTask {t' : ScopeTree} {x : ScopeId} (inside : t.Below c x)
      (begun : t.beginTask x = .ok t') : Work c t t'
  | endTask {x : ScopeId} (inside : t.Below c x) : Work c t (t.endTask x)

/-- One operation on the markers below `c`. -/
inductive Marking (c : ScopeId) (t : ScopeTree) : ScopeTree → Prop
  | mark {t' : ScopeTree} {x : ScopeId} {n : Nat} (inside : t.Below c x)
      (marked : t.markExecuted x n = .ok t') : Marking c t t'
  | clear {t' : ScopeTree} {x : ScopeId} {subtree : Node} (inside : t.Below c x)
      (cleared : t.clearExecuted x subtree = .ok t') : Marking c t t'

/-- A call from the scope `k` in the tree `before`, until its scope is gone. -/
structure CallRun (before : ScopeTree) (k : ScopeId) (declaration : Node) where
  callee : ScopeId
  entered : ScopeTree
  ran : ScopeTree
  cleared : ScopeTree
  waited : ScopeTree
  outcome : Release
  released : ScopeTree
  ended : ScopeTree
  create : before.create k = .ok (callee, entered)
  /-- The body, and all its tasks do until it ends. -/
  body : ReflTransGen (fun t t' => Work callee t t' ∨ Marking callee t t') entered ran
  clear : ran.clearExecuted callee declaration = .ok cleared
  wait : ReflTransGen (Work callee) cleared waited
  release : waited.release callee = .ok (outcome, released)
  /-- What tasks do after the call has returned. -/
  rest : ReflTransGen (Work callee) released ended
  done : ended.contains callee = false

/-- The tree `t'` differs from `t` below `c` only, and in what the caller `k` takes over when `c` is
removed. -/
structure Local (k c : ScopeId) (t t' : ScopeTree) : Prop where
  wellFormed : t'.WellFormed
  outside : ∀ y s, t.find? y = some s → ¬ t.Below c y → ∃ s', t'.find? y = some s' ∧
    ¬ t'.Below c y ∧ s'.parent = s.parent ∧ s'.pending = s.pending ∧ s'.marked = s.marked
  callee : ∀ s', t'.find? c = some s' → ∃ s, t.find? c = some s ∧ s'.parent = s.parent ∧
    s'.marked = s.marked ∧ t'.find? k = t.find? k

/-- A local change that does not remove `c` unless it is marked. -/
structure Confined (k c : ScopeId) (t t' : ScopeTree) : Prop extends Local k c t t' where
  stays : ∀ s, t.find? c = some s → s.marked = false → ∃ s', t'.find? c = some s'

/-- The scope `c` is there for a call from `k`, and what is marked above `k` waits for tasks that
are not below `c`. -/
structure Calling (k c : ScopeId) (t : ScopeTree) : Prop where
  wellFormed : t.WellFormed
  parent : ∀ s, t.find? c = some s → s.parent = some k
  caller : ∃ s, t.find? k = some s
  root : ∀ s, t.find? ScopeTree.root = some s → s.marked = false
  waiting : ∀ a s, t.Below a k → t.find? a = some s → s.marked = true → ∃ y ys, t.Below a y ∧
    ¬ t.Below c y ∧ t.find? y = some ys ∧ 0 < ys.pending

/-- The marker `n` is held by `k` or below `c`. -/
def Holds (t : ScopeTree) (k c : ScopeId) (n : Nat) : Prop :=
  ∃ y s, (y = k ∨ t.Below c y) ∧ t.find? y = some s ∧ s.executed.contains n

namespace Confined

theorem refl (wf : t.WellFormed) : Confined k c t t :=
  ⟨⟨wf, fun _ s hs hb => ⟨s, hs, hb, rfl, rfl, rfl⟩, fun s hs => ⟨s, hs, rfl, rfl, rfl⟩⟩,
    fun s hs _ => ⟨s, hs⟩⟩

theorem trans (h : Confined k c t t') (h' : Confined k c t' u) : Confined k c t u := by
  refine ⟨⟨h'.wellFormed, fun y s hs hb => ?_, fun s₂ hs₂ => ?_⟩, fun s hs hm => ?_⟩
  · obtain ⟨s₁, hs₁, hb₁, hp₁, hn₁, hm₁⟩ := h.outside y s hs hb
    obtain ⟨s₂, hs₂, hb₂, hp₂, hn₂, hm₂⟩ := h'.outside y s₁ hs₁ hb₁
    exact ⟨s₂, hs₂, hb₂, hp₂.trans hp₁, hn₂.trans hn₁, hm₂.trans hm₁⟩
  · obtain ⟨s₁, hs₁, hp₂, hm₂, hk₂⟩ := h'.callee s₂ hs₂
    obtain ⟨s, hs, hp₁, hm₁, hk₁⟩ := h.callee s₁ hs₁
    exact ⟨s, hs, hp₂.trans hp₁, hm₂.trans hm₁, hk₂.trans hk₁⟩
  · obtain ⟨s₁, hs₁⟩ := h.stays s hs hm
    obtain ⟨s', hs', -, hm₁, -⟩ := h.callee s₁ hs₁
    rw [hs] at hs'
    cases hs'
    exact h'.stays s₁ hs₁ (hm₁.trans hm)

/-- A scope of a call that is not marked stays, and the caller does not change. -/
theorem unmarked (h : Confined k c t t') (hs : t.find? c = some s) (hm : s.marked = false) :
    t'.find? k = t.find? k ∧ ∃ s', t'.find? c = some s' ∧ s'.marked = false := by
  obtain ⟨s', hs'⟩ := h.stays s hs hm
  obtain ⟨s₀, hs₀, -, hm', hk⟩ := h.callee s' hs'
  rw [hs] at hs₀
  cases hs₀
  exact ⟨hk, s', hs', hm'.trans hm⟩

end Confined

/-- What is not below `c` keeps its way to the root. -/
theorem Local.below_outside (h : Local k c t t') (wf : t.WellFormed) (hs : t.find? y = some s)
    (hy : ¬ t.Below c y) : t'.Below a y ↔ t.Below a y := by
  -- Upwards, over the parents of `y`, none of which is below `c`.
  induction y using Nat.strongRecOn generalizing s with
  | ind y ih =>
    obtain ⟨s', hs', -, hp', -⟩ := h.outside y s hs hy
    rw [h.wellFormed.below_iff, wf.below_iff]
    simp only [hs, hs', Option.some.injEq, exists_eq_left', hp']
    refine or_congr_right (exists_congr fun p => and_congr_right fun hp => ?_)
    obtain ⟨ps, hps, hlt, -⟩ := wf.find?_parent hs hp
    exact ih p hlt hps fun hb => hy (wf.below_step hs hp hb)

namespace Calling

/-- The caller is not below the scope of the call. -/
theorem not_below_caller (h : Calling k c t) : ¬ t.Below c k := fun hb => by
  obtain ⟨s, hs⟩ := h.wellFormed.find?_of_above hb
  exact h.wellFormed.not_below_parent hs (h.parent s hs) hb

theorem not_below_root (h : Calling k c t) : ¬ t.Below c ScopeTree.root := fun hb => by
  obtain ⟨s, hs⟩ := h.wellFormed.find?_of_above hb
  exact h.wellFormed.ne_root hs (h.parent s hs) (Nat.le_zero.1 (h.wellFormed.le_of_below hb))

/-- The parent of a scope below `c` is the caller, or it is below `c` too. -/
theorem parent_cases (h : Calling k c t) (hx : t.Below c x) (hs : t.find? x = some s)
    (hp : s.parent = some p) : (x = c ∧ p = k) ∨ (x ≠ c ∧ t.Below c p) := by
  obtain ⟨s', hs', rfl | ⟨q, hq, hb⟩⟩ := h.wellFormed.below_iff.1 hx
  · have hk := h.parent s hs
    rw [hp] at hk
    exact .inl ⟨rfl, Option.some.inj hk⟩
  · rw [hs] at hs'
    cases hs'
    rw [hp] at hq
    cases hq
    refine .inr ⟨?_, hb⟩
    rintro rfl
    exact h.wellFormed.not_below_parent hs hp hb

/-- What local changes keep. -/
theorem of_local (h : Calling k c t) (hc : Local k c t t') : Calling k c t' := by
  obtain ⟨ks, hks⟩ := h.caller
  have hk := h.not_below_caller
  refine ⟨hc.wellFormed, fun s' hs' => ?_, ?_, fun s' hs' => ?_, fun a s' hb hs' hm => ?_⟩
  · obtain ⟨s, hs, hp, -⟩ := hc.callee s' hs'
    exact hp.trans (h.parent s hs)
  · obtain ⟨ks', hks', -⟩ := hc.outside k ks hks hk
    exact ⟨ks', hks'⟩
  · obtain ⟨s, hs, -⟩ := h.wellFormed.root
    obtain ⟨s'', hs'', -, -, -, hm⟩ := hc.outside _ s hs h.not_below_root
    rw [hs'] at hs''
    cases hs''
    exact hm.trans (h.root s hs)
  · have hab := (hc.below_outside h.wellFormed hks hk).1 hb
    obtain ⟨s, hs⟩ := h.wellFormed.find?_of_above hab
    have hac : ¬ t.Below c a := fun hca => hk (h.wellFormed.below_trans hca hab)
    obtain ⟨s'', hs'', -, -, -, hma⟩ := hc.outside a s hs hac
    rw [hs'] at hs''
    cases hs''
    obtain ⟨y, ys, hay, hcy, hys, hpos⟩ := h.waiting a s hab hs (hma ▸ hm)
    obtain ⟨ys', hys', hcy', -, hpend, -⟩ := hc.outside y ys hys hcy
    exact ⟨y, ys', (hc.below_outside h.wellFormed hys hcy).2 hay, hcy', hys', hpend ▸ hpos⟩

/-- A change of the scopes below `c` that keeps the links, and the mark of `c`, is confined. -/
theorem confined_of_links (h : Calling k c t) (hl : SameLinks t t') (hn : t.nextId ≤ t'.nextId)
    (hout : ∀ y, ¬ t.Below c y → t'.find? y = t.find? y)
    (hmark : ∀ s, t.find? c = some s → ∃ s', t'.find? c = some s' ∧ s'.marked = s.marked) :
    Confined k c t t' := by
  have wf' := h.wellFormed.of_links hl hn
  refine ⟨⟨wf', fun y s hs hy => ?_, fun s' hs' => ?_⟩, fun s hs _ => ?_⟩
  · refine ⟨s, (hout y hy).trans hs, fun hb => hy ?_, rfl, rfl, rfl⟩
    exact wf'.below_of_links h.wellFormed hl.symm hb
  · obtain ⟨s, hs, hp, -⟩ := hl.symm.find? hs'
    obtain ⟨s'', hs'', hm⟩ := hmark s hs
    rw [hs'] at hs''
    cases hs''
    exact ⟨s, hs, hp.symm, hm, hout k h.not_below_caller⟩
  · obtain ⟨s', hs', -⟩ := hmark s hs
    exact ⟨s', hs'⟩

theorem confined_modify (h : Calling k c t) (hx : t.Below c x) {f : Scope → Scope}
    (hf : ∀ s, (f s).links = s.links ∧ (f s).marked = s.marked) :
    Confined k c t (t.modify x f) := by
  refine h.confined_of_links (sameLinks_modify t x fun s => (hf s).1) (Nat.le_refl _)
    (fun y hy => find?_modify_ne (fun he : x = y => hy (he ▸ hx)) f) fun s hs => ?_
  rw [find?_modify, hs]
  split
  · exact ⟨_, rfl, (hf s).2⟩
  · exact ⟨s, rfl, rfl⟩

theorem confined_remarked (h : Calling k c t) (hx : t.Below c x) (hr : Remarked x t t') :
    Confined k c t t' := by
  refine h.confined_of_links hr.sameLinks (Nat.le_of_eq hr.next.symm)
    (fun y hy => hr.other y fun he => hy (he ▸ hx)) fun s hs => ?_
  by_cases hcx : c = x
  · subst hcx
    obtain ⟨s', hs', he⟩ := hr.self s hs
    exact ⟨s', hs', by rw [he]⟩
  · exact ⟨s, (hr.other c hcx).trans hs, rfl⟩

theorem confined_mark (h : Calling k c t) (hx : t.Below c x) (hxc : x ≠ c)
    (hs : t.find? x = some s) : Confined k c t (t.mark x s) := by
  obtain ⟨p, ps, hp, hps, hlt, -⟩ := h.wellFormed.parent x s hs fun he => by
    subst he
    exact h.not_below_root hx
  have hne := Nat.ne_of_lt hlt
  obtain ⟨he, -⟩ | ⟨-, hbp⟩ := h.parent_cases hx hs hp
  · exact absurd he hxc
  have hfind := find?_mark hs hp hne
  refine h.confined_of_links (sameLinks_mark t x s) (Nat.le_of_eq (nextId_mark t x s).symm)
    (fun y hy => ?_) fun cs hcs => ?_
  · have hyx : y ≠ x := fun he => hy (he ▸ hx)
    have hyp : y ≠ p := fun he => hy (he ▸ hbp)
    rw [hfind, if_neg hyx, if_neg hyp]
  · rw [hfind, if_neg (Ne.symm hxc)]
    split
    · rename_i hcp
      rw [← hcp, hcs]
      exact ⟨_, rfl, rfl⟩
    · exact ⟨cs, hcs, rfl⟩

theorem confined_create (h : Calling k c t) (hx : t.Below c x) (hps : t.find? x = some ps)
    (hc : t.Created x ps t') : Confined k c t t' := by
  have wf := h.wellFormed
  have hk := h.not_below_caller
  obtain ⟨ks, hks⟩ := h.caller
  have hsame : ∀ y s, t.find? y = some s → ¬ t.Below c y → t'.find? y = some s :=
    fun y s hs hy => by
      rw [hc.other y (Nat.ne_of_lt (wf.bound y s hs)) fun he => hy (he ▸ hx), hs]
  obtain ⟨cs, hcs⟩ := wf.find?_of_above hx
  obtain ⟨cs', hcs', he, -⟩ := hc.find?_old wf hps hcs
  refine ⟨⟨hc.wellFormed wf hps, fun y s hs hy => ?_, fun s' hs' => ?_⟩, fun _ _ _ => ⟨cs', hcs'⟩⟩
  · exact ⟨s, hsame y s hs hy, fun hb => hy ((hc.below_old wf hps hs).1 hb), rfl, rfl, rfl⟩
  · rw [hcs'] at hs'
    cases hs'
    exact ⟨cs, hcs, by rw [he], by rw [he], (hsame k ks hks hk).trans hks.symm⟩

theorem local_remove (h : Calling k c t) (hx : t.Below c x) (hs : t.find? x = some s)
    (hp : s.parent = some p) (hps : t.find? p = some ps) (hpr : t.Pruned p ps [x] t') :
    Local k c t t' := by
  have wf := h.wellFormed
  have wf' := hpr.wellFormed wf hps (areChildren_singleton hs hp)
  have hbelow {a y : ScopeId} : t'.Below a y ↔ t.Below a y ∧ ¬ t.Below x y :=
    hpr.below_iff wf hps hs hp
  have hleft {y : ScopeId} (hy : ¬ t.Below x y) : ∀ d ∈ [x], ¬ t.Below d y := fun d hd => by
    rwa [List.mem_singleton.1 hd]
  refine ⟨wf', fun y ys hys hy => ?_, fun cs' hcs' => ?_⟩
  · obtain ⟨ys', hys', h1, -, h2, h3, -⟩ :=
      hpr.find?_left hps hys (hleft fun hb => hy (wf.below_trans hx hb))
    exact ⟨ys', hys', fun hb => hy (hbelow.1 hb).1, h1, h2, h3⟩
  · obtain ⟨cs, hcs, hcx, h1, -, h3⟩ := (hpr.trimmed hps).find?_before hcs'
    obtain ⟨rfl, -⟩ | ⟨-, hbp⟩ := h.parent_cases hx hs hp
    · exact absurd hx (hcx x (List.mem_singleton_self _))
    · have hk := h.not_below_caller
      refine ⟨cs, hcs, h1, h3, hpr.kept k (fun he => hk (he ▸ hbp)) (hleft ?_)⟩
      exact fun hb => hk (wf.below_trans hx hb)

/-- Removing a scope below `c` is confined; `c` itself has to be marked. -/
theorem confined_remove (h : Calling k c t) (hx : t.Below c x) (hs : t.find? x = some s)
    (hp : s.parent = some p) (hps : t.find? p = some ps) (hpr : t.Pruned p ps [x] t')
    (hm : x = c → s.marked = true) : Confined k c t t' := by
  have wf := h.wellFormed
  refine ⟨h.local_remove hx hs hp hps hpr, fun cs hcs hcm => ?_⟩
  have hxc : x ≠ c := fun he => by
    rw [he, hcs] at hs
    cases hs
    exact Bool.false_ne_true (hcm.symm.trans (hm he))
  have hcx : ¬ t.Below x c := fun hb =>
    hxc (Nat.le_antisymm (wf.le_of_below hb) (wf.le_of_below hx))
  obtain ⟨cs', hcs', -⟩ := hpr.find?_left hps hcs fun d hd => by rwa [List.mem_singleton.1 hd]
  exact ⟨cs', hcs'⟩

/-! ## No marker gets lost -/

/-- The parent of a scope below `c` counts among those that hold markers of the call. -/
theorem parent_holds (h : Calling k c t) (hx : t.Below c x) (hs : t.find? x = some s)
    (hp : s.parent = some p) : p = k ∨ t.Below c p :=
  (h.parent_cases hx hs hp).imp And.right And.right

theorem holds_of_executed (wf : t.WellFormed) (wf' : t'.WellFormed) (hl : SameLinks t t')
    (he : ∀ y, (t'.find? y).map Scope.executed = (t.find? y).map Scope.executed) :
    t'.Holds k c n ↔ t.Holds k c n := by
  have hto : ∀ {t t' : ScopeTree}, t.WellFormed → t'.WellFormed → SameLinks t t' →
      (∀ y, (t'.find? y).map Scope.executed = (t.find? y).map Scope.executed) →
      t.Holds k c n → t'.Holds k c n := by
    rintro t t' wf wf' hl he ⟨y, s, hy, hs, hn⟩
    have hys := he y
    rw [hs, Option.map_some] at hys
    obtain ⟨s', hs', he'⟩ := Option.map_eq_some_iff.1 hys
    exact ⟨y, s', hy.imp_right (wf.below_of_links wf' hl), hs', by rw [he']; exact hn⟩
  exact ⟨hto wf' wf hl.symm fun y => (he y).symm, hto wf wf' hl he⟩

theorem holds_modify (h : Calling k c t) (x : ScopeId) {f : Scope → Scope}
    (hf : ∀ s, (f s).links = s.links ∧ (f s).executed = s.executed) :
    (t.modify x f).Holds k c n ↔ t.Holds k c n := by
  have hl := sameLinks_modify t x fun s => (hf s).1
  refine holds_of_executed h.wellFormed (h.wellFormed.of_links hl (Nat.le_refl _)) hl fun y => ?_
  rw [find?_modify]
  split
  · cases t.find? y with
    | none => rfl
    | some s => simp [(hf s).2]
  · rfl

theorem holds_create (h : Calling k c t) (hps : t.find? x = some ps) (hc : t.Created x ps t') :
    t'.Holds k c n ↔ t.Holds k c n := by
  have wf := h.wellFormed
  constructor
  · rintro ⟨y, s', hy, hs', hn⟩
    by_cases hnew : y = t.nextId
    · rw [hnew, hc.new] at hs'
      cases hs'
      exact absurd hn (KeySet.not_contains_empty n)
    · obtain ⟨s, hs⟩ := hc.find?_of_ne hps hnew hs'
      obtain ⟨s'', hs'', he, -⟩ := hc.find?_old wf hps hs
      rw [hs'] at hs''
      cases hs''
      rw [he] at hn
      exact ⟨y, s, hy.imp_right (hc.below_old wf hps hs).1, hs, hn⟩
  · rintro ⟨y, s, hy, hs, hn⟩
    obtain ⟨s', hs', he, -⟩ := hc.find?_old wf hps hs
    exact ⟨y, s', hy.imp_right (hc.below_old wf hps hs).2, hs', by rw [he]; exact hn⟩

/-- A scope that is marked shares its markers with its parent. -/
theorem holds_mark (h : Calling k c t) (hx : t.Below c x) (hs : t.find? x = some s) :
    (t.mark x s).Holds k c n ↔ t.Holds k c n := by
  have wf := h.wellFormed
  have wf' := wf.mark x s
  have hl := sameLinks_mark t x s
  obtain ⟨p, ps, hp, hps, hlt, -⟩ := wf.parent x s hs fun he => h.not_below_root (he ▸ hx)
  have hfind := find?_mark hs hp (Nat.ne_of_lt hlt)
  constructor
  · rintro ⟨y, ys', hy, hys', hn⟩
    have hy' := hy.imp_right (wf'.below_of_links wf hl.symm)
    rw [hfind] at hys'
    split at hys'
    · cases hys'
      exact ⟨x, s, .inr hx, hs, hn⟩
    · split at hys'
      · rename_i hyp
        rw [hps] at hys'
        cases hys'
        rcases KeySet.contains_union.1 hn with hn | hn
        · exact ⟨p, ps, hyp ▸ hy', hps, hn⟩
        · exact ⟨x, s, .inr hx, hs, hn⟩
      · exact ⟨y, ys', hy', hys', hn⟩
  · rintro ⟨y, ys, hy, hys, hn⟩
    have hy' := hy.imp_right (wf.below_of_links wf' hl)
    by_cases hyx : y = x
    · subst hyx
      rw [hs] at hys
      cases hys
      exact ⟨y, _, hy', (hfind y).trans (if_pos rfl), hn⟩
    · by_cases hyp : y = p
      · subst hyp
        have hys' := hfind y
        rw [if_neg hyx, if_pos rfl, hys, Option.map_some] at hys'
        exact ⟨y, _, hy', hys', KeySet.contains_union.2 (.inl hn)⟩
      · exact ⟨y, ys, hy', by rw [hfind, if_neg hyx, if_neg hyp, hys], hn⟩

/-- A scope that is removed leaves its markers, and all that were below it, to its parent. -/
theorem holds_remove (h : Calling k c t) (hx : t.Below c x) (hs : t.find? x = some s)
    (hp : s.parent = some p) (hps : t.find? p = some ps) (hpr : t.Pruned p ps [x] t') :
    t'.Holds k c n ↔ t.Holds k c n := by
  have wf := h.wellFormed
  have hbelow {a y : ScopeId} : t'.Below a y ↔ t.Below a y ∧ ¬ t.Below x y :=
    hpr.below_iff wf hps hs hp
  have hparent : ∀ {m}, (ps.absorbAll [x] t.residue).executed.contains m ↔
      ps.executed.contains m ∨
        ∃ y ys, t.Below x y ∧ t.find? y = some ys ∧ ys.executed.contains m := by
    intro m
    rw [Scope.contains_executed_absorbAll]
    simp [wf.contains_executed_residue hs]
  have hpx : ¬ t.Below x p := wf.not_below_parent hs hp
  have hpk := h.parent_holds hx hs hp
  constructor
  · rintro ⟨y, ys', hy, hys', hn⟩
    have hy' : y = k ∨ t.Below c y := hy.imp_right fun hb => (hbelow.1 hb).1
    by_cases hyp : y = p
    · subst hyp
      rw [hpr.parent] at hys'
      cases hys'
      rcases hparent.1 hn with hn | ⟨z, zs, hxz, hzs, hn⟩
      · exact ⟨y, ps, hy', hps, hn⟩
      · exact ⟨z, zs, .inr (wf.below_trans hx hxz), hzs, hn⟩
    · obtain ⟨-, -, hleft⟩ := hpr.find?_before hps hys'
      exact ⟨y, ys', hy', (hpr.kept y hyp hleft).symm.trans hys', hn⟩
  · rintro ⟨y, ys, hy, hys, hn⟩
    have hpk' : p = k ∨ t'.Below c p := hpk.imp_right fun hb => hbelow.2 ⟨hb, hpx⟩
    by_cases hxy : t.Below x y
    · exact ⟨p, _, hpk', hpr.parent, hparent.2 (.inr ⟨y, ys, hxy, hys, hn⟩)⟩
    · by_cases hyp : y = p
      · subst hyp
        rw [hps] at hys
        cases hys
        exact ⟨y, _, hpk', hpr.parent, hparent.2 (.inl hn)⟩
      · refine ⟨y, ys, hy.imp_right fun hb => hbelow.2 ⟨hb, hxy⟩, ?_, hn⟩
        exact (hpr.kept y hyp fun d hd => by rwa [List.mem_singleton.1 hd]).trans hys

/-! ## Operations below `c` -/

theorem marking (h : Calling k c t) (hm : Marking c t t') : Confined k c t t' := by
  cases hm with
  | mark hx marked =>
    obtain ⟨s, hs⟩ := h.wellFormed.find?_of_below hx
    obtain ⟨u, hu, hr, -⟩ := markExecuted_of_find? hs _
    rw [hu] at marked
    cases marked
    exact h.confined_remarked hx hr
  | clear hx cleared =>
    obtain ⟨s, hs⟩ := h.wellFormed.find?_of_below hx
    obtain ⟨u, -, hu, hr, -⟩ := clearExecuted_of_find? hs _
    rw [hu] at cleared
    cases cleared
    exact h.confined_remarked hx hr

/-- Scopes below `c` are discarded one after the other. -/
theorem foldl_discard {l : List ScopeId} (h : Calling k c t)
    (hl : ∀ r ∈ l, ∀ s, t.find? r = some s → t.Below c r ∧ (r = c → s.marked = true)) :
    Confined k c t (l.foldl discard t) ∧
      ((l.foldl discard t).Holds k c n ↔ t.Holds k c n) := by
  induction l generalizing t with
  | nil => exact ⟨.refl h.wellFormed, Iff.rfl⟩
  | cons r l ih =>
    rw [List.foldl_cons]
    have hl' : ∀ r ∈ l, _ := fun q hq => hl q (List.mem_cons_of_mem _ hq)
    cases hr : t.find? r with
    | none =>
      obtain ⟨e, he⟩ := remove_of_none hr
      have hd : t.discard r = t := by unfold discard; rw [he]
      rw [hd]
      exact ih h hl'
    | some s =>
      obtain ⟨hx, hm⟩ := hl r List.mem_cons_self s hr
      have wf := h.wellFormed
      obtain ⟨p, ps, hp, hps, -⟩ := wf.parent r s hr fun he => h.not_below_root (he ▸ hx)
      obtain ⟨u, hu, hpr⟩ := wf.remove hr hp hps
      have hd : t.discard r = u := by unfold discard; rw [hu]
      have hc := h.confined_remove hx hr hp hps hpr hm
      have hholds := h.holds_remove (n := n) hx hr hp hps hpr
      rw [hd]
      obtain ⟨hc', hholds'⟩ := ih (h.of_local hc.toLocal) fun q hq qs' hqs' => by
        obtain ⟨qs, hqs, hleft, -, -, hmark⟩ := (hpr.trimmed hps).find?_before hqs'
        obtain ⟨hb, hm⟩ := hl' q hq qs hqs
        exact ⟨((hpr.trimmed hps).below_iff wf hc.wellFormed).2 ⟨hb, hleft⟩,
          fun he => hmark.trans (hm he)⟩
      exact ⟨hc.trans hc', hholds'.trans hholds⟩

/-- The end of a task below `c` removes no scope above `c`: what is marked there has other tasks to
wait for. -/
theorem endTask (h : Calling k c t) (hx : t.Below c x) :
    Confined k c t (t.endTask x) ∧ ((t.endTask x).Holds k c n ↔ t.Holds k c n) := by
  have hc : Confined k c t (t.discount x) := h.confined_modify hx fun _ => ⟨rfl, rfl⟩
  have hholds : (t.discount x).Holds k c n ↔ t.Holds k c n :=
    h.holds_modify x fun _ => ⟨rfl, rfl⟩
  have hd := h.of_local hc.toLocal
  obtain ⟨hc', hholds'⟩ := hd.foldl_discard (n := n) (l := (t.discount x).ready x)
    fun r hr s hs => by
      obtain ⟨hb, ⟨s', hs', hm⟩, hidle⟩ := mem_ready.1 hr
      rw [hs] at hs'
      cases hs'
      refine ⟨?_, fun _ => hm⟩
      -- Otherwise `r` is above the caller, where it waits for another task.
      have hx' := h.wellFormed.below_of_links hd.wellFormed (t.sameLinks_discount x) hx
      rcases hd.wellFormed.below_total hx' hb with hcr | hrc
      · exact hcr
      · obtain ⟨cs, hcs, rfl | ⟨q, hq, hrk⟩⟩ := hd.wellFormed.below_iff.1 hrc
        · exact hd.wellFormed.below_refl hcs
        · rw [hd.parent cs hcs] at hq
          cases hq
          obtain ⟨y, ys, hry, -, hys, hpos⟩ := hd.waiting r s hrk hs hm
          exact absurd (hd.wellFormed.hasPending_iff.2 ⟨y, ys, hry, hys, hpos⟩) hidle
  exact ⟨hc.trans hc', hholds'.trans hholds⟩

/-- **Work below the scope of a call is confined, and no marker gets lost.** -/
theorem work (h : Calling k c t) (hw : Work c t t') :
    Confined k c t t' ∧ (t'.Holds k c n ↔ t.Holds k c n) := by
  have wf := h.wellFormed
  cases hw with
  | create hx made =>
    obtain ⟨s, hs⟩ := wf.find?_of_below hx
    obtain ⟨u, hu, hc⟩ := wf.create hs
    rw [hu] at made
    cases made
    exact ⟨h.confined_create hx hs hc, h.holds_create hs hc⟩
  | @release _ x outcome hx hxc released =>
    obtain ⟨s, hs⟩ := wf.find?_of_below hx
    have hroot : x ≠ ScopeTree.root := fun he => h.not_below_root (he ▸ hx)
    by_cases hpend : t.hasPending x
    · rw [release_of_pending hs hroot hpend] at released
      cases released
      exact ⟨h.confined_mark hx hxc hs, h.holds_mark hx hs⟩
    · obtain ⟨p, ps, hp, hps, -⟩ := wf.parent x s hs hroot
      obtain ⟨u, hu, hpr⟩ := wf.release_of_idle hs hp hps hpend
      rw [hu] at released
      cases released
      exact ⟨h.confined_remove hx hs hp hps hpr fun he => absurd he hxc,
        h.holds_remove hx hs hp hps hpr⟩
  | beginTask hx begun =>
    obtain ⟨s, hs⟩ := wf.find?_of_below hx
    rw [beginTask_of_find? hs] at begun
    cases begun
    exact ⟨h.confined_modify hx fun _ => ⟨rfl, rfl⟩, h.holds_modify _ fun _ => ⟨rfl, rfl⟩⟩
  | endTask hx => exact h.endTask hx

theorem work_run (h : Calling k c t) (hw : ReflTransGen (Work c) t t') :
    Confined k c t t' ∧ (t'.Holds k c n ↔ t.Holds k c n) := by
  induction hw with
  | refl => exact ⟨.refl h.wellFormed, Iff.rfl⟩
  | tail _ hstep ih =>
    obtain ⟨hc, hholds⟩ := ih
    obtain ⟨hc', hholds'⟩ := (h.of_local hc.toLocal).work hstep
    exact ⟨hc.trans hc', hholds'.trans hholds⟩

theorem body_run (h : Calling k c t)
    (hw : ReflTransGen (fun t t' => Work c t t' ∨ Marking c t t') t t') : Confined k c t t' := by
  induction hw with
  | refl => exact .refl h.wellFormed
  | tail _ hstep ih =>
    have h' := h.of_local ih.toLocal
    exact ih.trans (hstep.elim (fun hw => (h'.work (n := 0) hw).1) h'.marking)

/-- The release of `c` itself. -/
theorem release_callee {outcome : Release} (h : Calling k c t) (hs : t.find? c = some s)
    (released : t.release c = .ok (outcome, t')) :
    Calling k c t' ∧ (t'.Holds k c n ↔ t.Holds k c n) := by
  have wf := h.wellFormed
  have hp := h.parent s hs
  have hc := wf.below_refl hs
  obtain ⟨ks, hks⟩ := h.caller
  by_cases hpend : t.hasPending c
  · rw [release_of_pending hs (wf.ne_root hs hp) hpend] at released
    cases released
    refine ⟨?_, h.holds_mark hc hs⟩
    have hl := sameLinks_mark t c s
    have wf' := wf.mark c s
    have hbefore {y : ScopeId} {s' : Scope} (hs' : (t.mark c s).find? y = some s') :=
      find?_of_mark hs hp (Nat.ne_of_lt (wf.parent_lt hs hp)) hs'
    refine ⟨wf', fun s' hs' => ?_, ?_, fun s' hs' => ?_, fun a s' hb hs' hm => ?_⟩
    · obtain ⟨s₀, hs₀, hp₀, -⟩ := hl.symm.find? hs'
      rw [← hp₀]
      exact h.parent s₀ hs₀
    · obtain ⟨ks', hks', -⟩ := hl.find? hks
      exact ⟨ks', hks'⟩
    · obtain ⟨rs, hrs, -, hmark⟩ := hbefore hs'
      refine Bool.eq_false_iff.2 fun hm => ?_
      rcases hmark.1 hm with he | hm
      · exact wf.ne_root hs hp he.symm
      · exact Bool.false_ne_true ((h.root rs hrs).symm.trans hm)
    · obtain ⟨as, has, -, hmark⟩ := hbefore hs'
      have hab := wf'.below_of_links wf hl.symm hb
      have hne : a ≠ c := fun he => h.not_below_caller (he ▸ hab)
      obtain ⟨y, ys, hay, hcy, hys, hpos⟩ :=
        h.waiting a as hab has ((hmark.1 hm).resolve_left hne)
      obtain ⟨ys', hys', -⟩ := hl.find? hys
      obtain ⟨ys₀, hys₀, hpn, -⟩ := hbefore hys'
      rw [hys] at hys₀
      cases hys₀
      refine ⟨y, ys', wf.below_of_links wf' hl hay, fun hb => ?_, hys', hpn ▸ hpos⟩
      exact hcy (wf'.below_of_links wf hl.symm hb)
  · obtain ⟨u, hu, hpr⟩ := wf.release_of_idle hs hp hks hpend
    rw [hu] at released
    cases released
    exact ⟨h.of_local (h.local_remove hc hs hp hks hpr), h.holds_remove hc hs hp hks hpr⟩

end Calling

/-! ## Calls -/

theorem find?_of_create {id : ScopeId} (h : t.create k = .ok (id, t')) :
    ∃ s, t.find? k = some s := by
  obtain ⟨s, hs, -⟩ := find?_of_get_bind h
  exact ⟨s, hs⟩

/-- A call can start from any scope of a crew. -/
theorem calling_of_sound {crew : Crew} {ks : Scope} (h : crew.Sound)
    (hk : crew.scopes.find? k = some ks) (hc : crew.scopes.Created k ks t') :
    Calling k crew.scopes.nextId t' := by
  have wf := h.tidy.wellFormed
  have wf' := hc.wellFormed wf hk
  -- The new scope is below no old one.
  have hnew {y : ScopeId} {s : Scope} (hs : crew.scopes.find? y = some s) :
      ¬ t'.Below crew.scopes.nextId y := fun hb =>
    Nat.not_le.2 (wf.bound y s hs) (wf'.le_of_below hb)
  have hbefore {y : ScopeId} {s s' : Scope} (hs : crew.scopes.find? y = some s)
      (hs' : t'.find? y = some s') : s'.marked = s.marked ∧ s'.pending = s.pending := by
    obtain ⟨s'', hs'', he, -⟩ := hc.find?_old wf hk hs
    rw [hs'] at hs''
    cases hs''
    exact ⟨by rw [he], by rw [he]⟩
  refine ⟨wf', fun s' hs' => ?_, ⟨_, hc.parent⟩, fun s' hs' => ?_, fun a s' hb hs' hm => ?_⟩
  · rw [hc.new] at hs'
    cases hs'
    rfl
  · obtain ⟨s, hs, -⟩ := wf.root
    exact (hbefore hs hs').1.trans (h.tidy.root s hs)
  · have hab := (hc.below_old wf hk hk).1 hb
    obtain ⟨s, hs⟩ := wf.find?_of_above hab
    have hpend := h.tidy.waiting a s hs ((hbefore hs hs').1 ▸ hm)
    obtain ⟨y, ys, hay, hys, hpos⟩ := wf.hasPending_iff.1 hpend
    obtain ⟨ys', hys', -⟩ := hc.find?_old wf hk hys
    exact ⟨y, ys', (hc.below_old wf hk hys).2 hay, hnew hys, hys', (hbefore hys hys').2 ▸ hpos⟩

/-- When `c` is gone, its caller holds the markers of the call. -/
theorem holds_of_gone (wf : t.WellFormed) (hc : t.find? c = none) :
    t.Holds k c n ↔ t.hasExecuted k n = .ok true := by
  rw [hasExecuted_iff]
  constructor
  · rintro ⟨y, s, rfl | hb, hs, hn⟩
    · exact ⟨s, hs, hn⟩
    · obtain ⟨cs, hcs⟩ := wf.find?_of_above hb
      rw [hc] at hcs
      cases hcs
  · rintro ⟨s, hs, hn⟩
    exact ⟨k, s, .inl rfl, hs, hn⟩

/-- What is held after the markers of `declaration` are cleared in `c`. -/
theorem Calling.holds_clear (h : Calling k c t) {declaration : Node} (hs : t.find? c = some s)
    (cleared : t.clearExecuted c declaration = .ok t') :
    t'.Holds k c n ↔ t.hasExecuted k n = .ok true ∨
      (t.hasExecuted c n = .ok true ∧ n ∉ declaration.descendants.map (·.id)) ∨
      ∃ x, x ≠ c ∧ t.Below c x ∧ t.hasExecuted x n = .ok true := by
  have wf := h.wellFormed
  obtain ⟨u, cs', hu, hr, hcs', hexec⟩ := clearExecuted_of_find? hs declaration
  rw [hu] at cleared
  cases cleared
  have wf' := hr.wellFormed wf
  have hkc : k ≠ c := by
    rintro rfl
    exact h.not_below_caller (wf.below_refl hs)
  have hbelow {y : ScopeId} : t'.Below c y ↔ t.Below c y :=
    ⟨wf'.below_of_links wf hr.sameLinks.symm, wf.below_of_links wf' hr.sameLinks⟩
  simp only [hasExecuted_iff]
  constructor
  · rintro ⟨y, ys, hy, hys, hn⟩
    by_cases hyc : y = c
    · subst hyc
      rw [hcs'] at hys
      cases hys
      exact .inr (.inl ⟨⟨s, hs, ((hexec n).1 hn).1⟩, ((hexec n).1 hn).2⟩)
    · rw [hr.other y hyc] at hys
      rcases hy with rfl | hb
      · exact .inl ⟨ys, hys, hn⟩
      · exact .inr (.inr ⟨y, hyc, hbelow.1 hb, ys, hys, hn⟩)
  · rintro (⟨ks, hks, hn⟩ | ⟨⟨cs, hcs, hn⟩, hid⟩ | ⟨x, hxc, hb, xs, hxs, hn⟩)
    · exact ⟨k, ks, .inl rfl, (hr.other k hkc).trans hks, hn⟩
    · rw [hs] at hcs
      cases hcs
      exact ⟨c, cs', .inr (hbelow.2 (wf.below_refl hs)), hcs', (hexec n).2 ⟨hn, hid⟩⟩
    · exact ⟨x, xs, .inr (hbelow.2 hb), (hr.other x hxc).trans hxs, hn⟩

/-- **What a call leaves to its caller.** Once the scope of a call is gone, its caller has the
markers it had before, those that the scope of the call held when its markers were cleared, without
the ones of the declaration, and all that scopes further below held at that time. So a marker of the
declaration gets to the caller exactly if a scope below the scope of the call still held it when the
markers were cleared. -/
theorem CallRun.markers {crew : Crew} {declaration : Node} (h : crew.Reachable)
    (run : CallRun crew.scopes k declaration) (n : Nat) :
    run.ended.contains k ∧
    (run.ended.hasExecuted k n = .ok true ↔
      crew.scopes.hasExecuted k n = .ok true ∨
      (run.ran.hasExecuted run.callee n = .ok true ∧ n ∉ declaration.descendants.map (·.id)) ∨
      ∃ x, x ≠ run.callee ∧ run.ran.Below run.callee x ∧
        run.ran.hasExecuted x n = .ok true) := by
  obtain ⟨c, entered, ran, cleared, waited, outcome, released, ended, hcreate, hbody, hclear, hwait,
    hrelease, hrest, hdone⟩ := run
  simp only at *
  obtain ⟨ks, hks⟩ := find?_of_create hcreate
  obtain ⟨u, hu, hnew⟩ := h.sound.tidy.wellFormed.create hks
  rw [hu] at hcreate
  cases hcreate
  -- Until its release, the scope of the call is not marked, so the caller does not change.
  have hentered := calling_of_sound h.sound hks hnew
  have hran := hentered.body_run hbody
  obtain ⟨hk₁, cs₁, hcs₁, hm₁⟩ := hran.unmarked hnew.new rfl
  have hcall₁ := hentered.of_local hran.toLocal
  have hclearing := hcall₁.marking (.clear (hcall₁.wellFormed.below_refl hcs₁) hclear)
  obtain ⟨-, cs₂, hcs₂, hm₂⟩ := hclearing.unmarked hcs₁ hm₁
  have hcall₂ := hcall₁.of_local hclearing.toLocal
  obtain ⟨hwaited, hholds₃⟩ := hcall₂.work_run (n := n) hwait
  obtain ⟨-, cs₃, hcs₃, -⟩ := hwaited.unmarked hcs₂ hm₂
  obtain ⟨hcall₄, hholds₄⟩ :=
    (hcall₂.of_local hwaited.toLocal).release_callee (n := n) hcs₃ hrelease
  obtain ⟨hended, hholds₅⟩ := hcall₄.work_run (n := n) hrest
  have hcall₅ := hcall₄.of_local hended.toLocal
  have hgone : ended.find? crew.scopes.nextId = none := Table.contains_eq_false.1 hdone
  have hbefore : ran.hasExecuted k n = .ok true ↔ crew.scopes.hasExecuted k n = .ok true := by
    rw [hasExecuted_iff, hasExecuted_iff, hk₁, hnew.parent, hks]
    simp
  refine ⟨contains_iff.2 hcall₅.caller, ?_⟩
  calc ended.hasExecuted k n = .ok true
    _ ↔ ended.Holds k crew.scopes.nextId n := (holds_of_gone hcall₅.wellFormed hgone).symm
    _ ↔ cleared.Holds k crew.scopes.nextId n := hholds₅.trans (hholds₄.trans hholds₃)
    _ ↔ _ := hcall₁.holds_clear hcs₁ hclear
    _ ↔ _ := by rw [hbefore]

/-- A function that returns at once. -/
def returning : Node :=
  ⟨3, default, .function "f" false none none ⟨5, default, .block [⟨7, default, .returnJump none⟩]⟩⟩

/-- A call whose body starts a task and returns; the task ends after the call has returned. -/
def endsLate : CallRun .initial root returning where
  callee := 1
  entered := _
  ran := _
  cleared := _
  waited := _
  outcome := .deferred
  released := _
  ended := _
  create := rfl
  body := .tail (.tail (.tail (.tail .refl
    (.inl (@Work.create 1 _ _ 1 2 (by decide) rfl)))
    (.inl (@Work.beginTask 1 _ _ 2 (by decide) rfl)))
    (.inr (@Marking.mark 1 _ _ 2 7 (by decide) rfl)))
    (.inl (@Work.release 1 _ _ 2 .deferred (by decide) (by decide) rfl))
  clear := rfl
  wait := .refl
  release := rfl
  rest := .tail .refl (@Work.endTask 1 _ 2 (by decide))
  done := by decide

/-- The same call, but the task ends before the body does. -/
def endsEarly : CallRun .initial root returning where
  callee := 1
  entered := _
  ran := _
  cleared := _
  waited := _
  outcome := .removed
  released := _
  ended := _
  create := rfl
  body := .tail (.tail (.tail (.tail (.tail .refl
    (.inl (@Work.create 1 _ _ 1 2 (by decide) rfl)))
    (.inl (@Work.beginTask 1 _ _ 2 (by decide) rfl)))
    (.inr (@Marking.mark 1 _ _ 2 7 (by decide) rfl)))
    (.inl (@Work.endTask 1 _ 2 (by decide))))
    (.inl (@Work.release 1 _ _ 2 .removed (by decide) (by decide) rfl))
  clear := rfl
  wait := .refl
  release := rfl
  rest := .refl
  done := by decide

/-- The marker of the return is held below the scope of the call when the markers are cleared. -/
theorem markers_endsLate :
    Crew.initial.Reachable ∧ endsLate.ended.hasExecuted root 7 = .ok true :=
  ⟨.initial, (CallRun.markers .initial endsLate 7).2.2
    (.inr (.inr ⟨2, by decide, by decide, rfl⟩))⟩

/-- **A late end of a task can be seen in the markers.** The same call leaves the marker of its
return to the caller if the task ends after the call, and does not if the task ends before. -/
theorem late_end_leaks : ∃ (declaration : Node) (early late : CallRun .initial root declaration),
    7 ∈ declaration.descendants.map (·.id) ∧ initial.hasExecuted root 7 = .ok false ∧
      early.ended.hasExecuted root 7 = .ok false ∧ late.ended.hasExecuted root 7 = .ok true :=
  ⟨returning, endsEarly, endsLate, by decide, rfl, rfl, rfl⟩

end ScopeTree

end TreeScript
