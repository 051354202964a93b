import TreeScript.Proofs.Scope.WellFormed

/-!
# Tearing scopes down

A scope is removed after its children, and each hands what it leaves to its parent. `residue` is
what a scope leaves in the end: its record after it took over what its children left.

* `Pruned t p ps l t'`: the tree `t'` is `t` without the children `l` of `p` and what is below them,
  and `p` has taken over their residues. Nothing else differs.
* `WellFormed.remove`: removing a scope of a well-formed tree succeeds and prunes it.
* `Pruned.wellFormed`: what is left is a tree again.
* `Trimmed l t t'`: the coarser view of several removals, also of scopes below one another. Scopes
  below one of `l` are gone, and the others keep their ways to the root (`Trimmed.below_iff`).
* `WellFormed.release_of_idle`, `release_of_pending`: a release prunes or marks.
* `WellFormed.endTask`: the end of a task trims the scopes that only waited for it, and no removal
  on the way fails.
-/

namespace TreeScript

namespace Scope

/-- Takes over what several children leave. -/
def absorbAll (s : Scope) (l : List ScopeId) (left : ScopeId → Scope) : Scope :=
  l.foldl (fun s c => s.absorb c (left c)) s

variable {s : Scope} {l : List ScopeId} {left : ScopeId → Scope}

theorem absorbAll_cons (s : Scope) (c : ScopeId) (l : List ScopeId) (left : ScopeId → Scope) :
    s.absorbAll (c :: l) left = (s.absorb c (left c)).absorbAll l left := rfl

theorem absorbAll_congr {left' : ScopeId → Scope} (h : ∀ c ∈ l, left c = left' c) :
    s.absorbAll l left = s.absorbAll l left' := by
  induction l generalizing s with
  | nil => rfl
  | cons c l ih =>
    rw [absorbAll_cons, absorbAll_cons, h c List.mem_cons_self,
      ih fun c hc => h c (List.mem_cons_of_mem _ hc)]

/-- What a scope takes over changes neither its place nor what it waits for. -/
theorem absorbAll_place (s : Scope) (l : List ScopeId) (left : ScopeId → Scope) :
    (s.absorbAll l left).parent = s.parent ∧ (s.absorbAll l left).depth = s.depth ∧
      (s.absorbAll l left).pending = s.pending ∧ (s.absorbAll l left).marked = s.marked := by
  induction l generalizing s with
  | nil => exact ⟨rfl, rfl, rfl, rfl⟩
  | cons c l ih => exact ih (s.absorb c (left c))

theorem contains_children_absorbAll {c : ScopeId} :
    (s.absorbAll l left).children.contains c ↔ s.children.contains c ∧ c ∉ l := by
  induction l generalizing s with
  | nil => simp [absorbAll]
  | cons d l ih =>
    have hd : (s.absorb d (left d)).children = s.children.erase d := rfl
    rw [absorbAll_cons, ih, hd, Table.contains_erase, List.mem_cons]
    grind

theorem contains_executed_absorbAll {n : Nat} :
    (s.absorbAll l left).executed.contains n ↔
      s.executed.contains n ∨ ∃ c ∈ l, (left c).executed.contains n := by
  induction l generalizing s with
  | nil => simp [absorbAll]
  | cons d l ih =>
    have hd : (s.absorb d (left d)).executed = KeySet.union s.executed (left d).executed := rfl
    rw [absorbAll_cons, ih, hd, KeySet.contains_union]
    simp only [List.mem_cons, exists_eq_or_imp, or_assoc]

end Scope

namespace ScopeTree

variable {t t' u : ScopeTree} {id a c x p : ScopeId} {s ps : Scope} {l : List ScopeId}

/-! ## Residues -/

/-- What a scope leaves if the tree is followed at most `limit` levels down. -/
def residueWithin (t : ScopeTree) : Nat → ScopeId → Scope
  | 0, _ => .fresh none 0
  | limit + 1, id =>
    match t.find? id with
    | none => .fresh none 0
    | some s => s.absorbAll s.children.keys (t.residueWithin limit)

/-- What a scope leaves when it is torn down. -/
def residue (t : ScopeTree) (id : ScopeId) : Scope := t.residueWithin (t.nextId - id) id

/-- A residue depends on the scopes below only, and not on the bound. -/
theorem WellFormed.residueWithin_congr (wf : t.WellFormed) {limit limit' : Nat}
    (hl : t.nextId - a ≤ limit) (hl' : t.nextId - a ≤ limit') (ha : t.find? a = some s)
    (h : ∀ x, t.Below a x → t'.find? x = t.find? x) :
    t'.residueWithin limit' a = t.residueWithin limit a := by
  induction limit generalizing a s limit' with
  | zero => exact absurd hl (levels_pos (wf.bound a s ha))
  | succ limit ih =>
    cases limit' with
    | zero => exact absurd hl' (levels_pos (wf.bound a s ha))
    | succ limit' =>
      have ha' : t'.find? a = some s := (h a (wf.below_refl ha)).trans ha
      simp only [residueWithin, ha, ha']
      refine Scope.absorbAll_congr fun c hc => ?_
      have hc' : s.children.contains c := Table.mem_keys.1 hc
      have hlt : a < c := wf.child_lt ha hc'
      obtain ⟨cs, hcs, hcp⟩ := wf.child a s c ha hc'
      have hac : t.Below a c := wf.below_step hcs hcp (wf.below_refl ha)
      exact ih (levels_step hl hlt) (levels_step hl' hlt) hcs
        fun x hx => h x (wf.below_trans hac hx)

theorem WellFormed.residue_eq (wf : t.WellFormed) (ha : t.find? a = some s) :
    t.residue a = s.absorbAll s.children.keys t.residue := by
  have hlt := wf.bound a s ha
  obtain ⟨limit, hlimit⟩ : ∃ limit, t.nextId - a = limit + 1 :=
    Nat.exists_eq_add_one.2 (Nat.sub_pos_of_lt hlt)
  unfold residue
  rw [hlimit]
  simp only [residueWithin, ha]
  refine Scope.absorbAll_congr fun c hc => ?_
  have hc' : s.children.contains c := Table.mem_keys.1 hc
  obtain ⟨cs, hcs, -⟩ := wf.child a s c ha hc'
  exact wf.residueWithin_congr (Nat.le_refl _)
    (levels_step (Nat.le_of_eq hlimit) (wf.child_lt ha hc')) hcs fun _ _ => rfl

/-- A scope leaves the markers of all scopes below it. -/
theorem WellFormed.contains_executed_residue (wf : t.WellFormed) {n : Nat}
    (ha : t.find? a = some s) : (t.residue a).executed.contains n ↔
      ∃ x xs, t.Below a x ∧ t.find? x = some xs ∧ xs.executed.contains n := by
  -- Downwards from the youngest scopes, since children are younger than their parents.
  induction hk : t.nextId - a using Nat.strongRecOn generalizing a s with
  | ind k ih =>
    subst hk
    have hbound := wf.bound a s ha
    rw [wf.residue_eq ha, Scope.contains_executed_absorbAll]
    constructor
    · rintro (h | ⟨c, hc, h⟩)
      · exact ⟨a, s, wf.below_refl ha, ha, h⟩
      · have hc' : s.children.contains c := Table.mem_keys.1 hc
        have hlt : a < c := wf.child_lt ha hc'
        obtain ⟨cs, hcs, hcp⟩ := wf.child a s c ha hc'
        obtain ⟨x, xs, hb, hx, hn⟩ :=
          (ih _ (Nat.sub_lt_sub_left hbound hlt) hcs rfl).1 h
        exact ⟨x, xs, wf.below_trans (wf.below_step hcs hcp (wf.below_refl ha)) hb, hx, hn⟩
    · rintro ⟨x, xs, hb, hx, hn⟩
      rcases wf.below_top hb with rfl | ⟨c, cs, hcs, hcp, hbc⟩
      · rw [ha] at hx
        cases hx
        exact .inl hn
      · obtain ⟨as, has, hlt, -, hmem⟩ := wf.find?_parent hcs hcp
        rw [ha] at has
        cases has
        refine .inr ⟨c, Table.mem_keys.2 hmem, ?_⟩
        exact (ih _ (Nat.sub_lt_sub_left hbound hlt) hcs rfl).2 ⟨x, xs, hbc, hx, hn⟩

/-! ## Trimmed trees -/

/-- The tree `t'` is `t` without the scopes below those of `l`. What is left keeps its parent and
what decides on its removal. -/
structure Trimmed (l : List ScopeId) (t t' : ScopeTree) : Prop where
  next : t'.nextId = t.nextId
  gone : ∀ r ∈ l, ∀ x, t.Below r x → t'.find? x = none
  kept : ∀ x s, t.find? x = some s → (∀ r ∈ l, ¬ t.Below r x) → ∃ s', t'.find? x = some s' ∧
    s'.parent = s.parent ∧ s'.pending = s.pending ∧ s'.marked = s.marked
  old : ∀ x s', t'.find? x = some s' → ∃ s, t.find? x = some s

namespace Trimmed

variable (ht : Trimmed l t t')

include ht

theorem find?_before {s' : Scope} (hs : t'.find? x = some s') :
    ∃ s, t.find? x = some s ∧ (∀ r ∈ l, ¬ t.Below r x) ∧ s'.parent = s.parent ∧
      s'.pending = s.pending ∧ s'.marked = s.marked := by
  have hx : ∀ r ∈ l, ¬ t.Below r x := fun r hr hb => by
    rw [ht.gone r hr x hb] at hs
    cases hs
  obtain ⟨s, h⟩ := ht.old x s' hs
  obtain ⟨s'', hs'', h'⟩ := ht.kept x s h hx
  rw [hs] at hs''
  cases hs''
  exact ⟨s, h, hx, h'⟩

/-- What is left lies below the same scopes as before. -/
theorem below_iff (wf : t.WellFormed) (wf' : t'.WellFormed) :
    t'.Below a x ↔ t.Below a x ∧ ∀ r ∈ l, ¬ t.Below r x := by
  constructor
  · intro hb
    refine wf'.below_induction (motive := fun x => t.Below a x ∧ ∀ r ∈ l, ¬ t.Below r x)
      (fun s' hs' => ?_) (fun x s' q hs' hq _ ih => ?_) hb
    · obtain ⟨s, hs, hx, -⟩ := ht.find?_before hs'
      exact ⟨wf.below_refl hs, hx⟩
    · obtain ⟨s, hs, hx, hpar, -⟩ := ht.find?_before hs'
      exact ⟨wf.below_step hs (hpar ▸ hq) ih.1, hx⟩
  · rintro ⟨hb, hx⟩
    refine wf.below_induction (motive := fun x => (∀ r ∈ l, ¬ t.Below r x) → t'.Below a x)
      (fun s hs hx => ?_) (fun x s q hs hq _ ih hx => ?_) hb hx
    · obtain ⟨s', hs', -⟩ := ht.kept _ s hs hx
      exact wf'.below_refl hs'
    · obtain ⟨s', hs', hpar, -⟩ := ht.kept _ s hs hx
      exact wf'.below_step hs' (hpar.trans hq)
        (ih fun r hr hbr => hx r hr (wf.below_step hs hq hbr))

/-- Trimming can go on. -/
theorem append {m : List ScopeId} (wf : t.WellFormed) (wf' : t'.WellFormed)
    (ht' : Trimmed m t' u) : Trimmed (l ++ m) t u := by
  have hgone : ∀ x, (∃ r ∈ l ++ m, t.Below r x) → u.find? x = none := by
    rintro x ⟨r, hr, hb⟩
    cases hu : u.find? x with
    | none => rfl
    | some s' =>
      obtain ⟨s, hs, hx, -⟩ := ht'.find?_before hu
      obtain ⟨-, -, hx', -⟩ := ht.find?_before hs
      rcases List.mem_append.1 hr with hr | hr
      · exact absurd hb (hx' r hr)
      · exact absurd ((ht.below_iff wf wf').2 ⟨hb, hx'⟩) (hx r hr)
  refine ⟨ht'.next.trans ht.next, fun r hr x hb => hgone x ⟨r, hr, hb⟩, fun x s hs hx => ?_,
    fun x s' hs' => ?_⟩
  · obtain ⟨s₁, hs₁, h1, h2, h3⟩ := ht.kept x s hs fun r hr => hx r (List.mem_append_left _ hr)
    obtain ⟨s₂, hs₂, k1, k2, k3⟩ := ht'.kept x s₁ hs₁ fun r hr hb =>
      hx r (List.mem_append_right _ hr) ((ht.below_iff wf wf').1 hb).1
    exact ⟨s₂, hs₂, k1.trans h1, k2.trans h2, k3.trans h3⟩
  · obtain ⟨s₁, hs₁⟩ := ht'.old x s' hs'
    exact ht.old x s₁ hs₁

end Trimmed

/-! ## Pruned trees -/

/-- The scopes of `l` are children of `p`. -/
def AreChildren (t : ScopeTree) (p : ScopeId) (l : List ScopeId) : Prop :=
  ∀ c ∈ l, ∃ cs, t.find? c = some cs ∧ cs.parent = some p

theorem areChildren_singleton (hc : t.find? c = some s) (hp : s.parent = some p) :
    t.AreChildren p [c] := fun d hd => by
  rw [List.mem_singleton.1 hd]
  exact ⟨s, hc, hp⟩

/-- The tree `t'` is `t` without the children `l` of `p` and what is below them; `p`, which was
`ps`, has taken over what they leave. -/
structure Pruned (t : ScopeTree) (p : ScopeId) (ps : Scope) (l : List ScopeId) (t' : ScopeTree) :
    Prop where
  next : t'.nextId = t.nextId
  gone : ∀ c ∈ l, ∀ x, t.Below c x → t'.find? x = none
  parent : t'.find? p = some (ps.absorbAll l t.residue)
  kept : ∀ x, x ≠ p → (∀ c ∈ l, ¬ t.Below c x) → t'.find? x = t.find? x

theorem WellFormed.not_below_parent (wf : t.WellFormed) (hc : t.find? c = some s)
    (hp : s.parent = some p) : ¬ t.Below c p := fun hb =>
  Nat.not_lt.2 (wf.le_of_below hb) (wf.parent_lt hc hp)

/-- No scope lies below two children of one scope. -/
theorem WellFormed.below_unique (wf : t.WellFormed) {d : ScopeId} {cs ds : Scope}
    (hc : t.find? c = some cs) (hcp : cs.parent = some p) (hd : t.find? d = some ds)
    (hdp : ds.parent = some p) (hcx : t.Below c x) (hdx : t.Below d x) : c = d := by
  rcases wf.below_total hcx hdx with h | h
  · obtain ⟨ds', hds', rfl | ⟨q, hq, hb⟩⟩ := wf.below_iff.1 h
    · rfl
    · rw [hd] at hds'
      cases hds'
      rw [hdp] at hq
      cases hq
      exact absurd hb (wf.not_below_parent hc hcp)
  · obtain ⟨cs', hcs', rfl | ⟨q, hq, hb⟩⟩ := wf.below_iff.1 h
    · rfl
    · rw [hc] at hcs'
      cases hcs'
      rw [hcp] at hq
      cases hq
      exact absurd hb (wf.not_below_parent hd hdp)

namespace Pruned

variable (hpr : t.Pruned p ps l t')

include hpr

/-- A scope that is left keeps its place and what it waits for; only `p` has fewer children. -/
theorem find?_left (hp : t.find? p = some ps) (hs : t.find? x = some s)
    (hx : ∀ c ∈ l, ¬ t.Below c x) :
    ∃ s', t'.find? x = some s' ∧ s'.parent = s.parent ∧ s'.depth = s.depth ∧
      s'.pending = s.pending ∧ s'.marked = s.marked ∧
      ∀ d, s'.children.contains d ↔ s.children.contains d ∧ ¬ (x = p ∧ d ∈ l) := by
  by_cases hxp : x = p
  · subst hxp
    rw [hp] at hs
    cases hs
    obtain ⟨h1, h2, h3, h4⟩ := s.absorbAll_place l t.residue
    refine ⟨_, hpr.parent, h1, h2, h3, h4, fun d => ?_⟩
    rw [Scope.contains_children_absorbAll]
    simp
  · exact ⟨s, (hpr.kept x hxp hx).trans hs, rfl, rfl, rfl, rfl, by simp [hxp]⟩

/-- A scope of the pruned tree was there before and is not below one of `l`. -/
theorem find?_before (hp : t.find? p = some ps) {s' : Scope} (hs : t'.find? x = some s') :
    ∃ s, t.find? x = some s ∧ ∀ c ∈ l, ¬ t.Below c x := by
  have hx : ∀ c ∈ l, ¬ t.Below c x := fun c hc hb => by
    rw [hpr.gone c hc x hb] at hs
    cases hs
  by_cases hxp : x = p
  · subst hxp
    exact ⟨ps, hp, hx⟩
  · exact ⟨s', (hpr.kept x hxp hx).symm.trans hs, hx⟩

theorem trimmed (hp : t.find? p = some ps) : Trimmed l t t' := by
  refine ⟨hpr.next, hpr.gone, fun x s hs hx => ?_, fun x s' hs' => ?_⟩
  · obtain ⟨s', hs', h1, -, h2, h3, -⟩ := hpr.find?_left hp hs hx
    exact ⟨s', hs', h1, h2, h3⟩
  · obtain ⟨s, hs, -⟩ := hpr.find?_before hp hs'
    exact ⟨s, hs⟩

/-- The pruned tree is a tree again. -/
theorem wellFormed (wf : t.WellFormed) (hp : t.find? p = some ps) (hl : t.AreChildren p l) :
    t'.WellFormed := by
  refine ⟨?_, fun id s' hs' hr => ?_, fun id s' d hs' hd => ?_, fun id s' hs' => ?_⟩
  · obtain ⟨s, hs, hsp, hsd⟩ := wf.root
    have hx : ∀ c ∈ l, ¬ t.Below c ScopeTree.root := fun c hc hb => by
      obtain ⟨cs, hcs, hcp⟩ := hl c hc
      exact wf.ne_root hcs hcp (Nat.le_zero.1 (wf.le_of_below hb))
    obtain ⟨s', hs', h1, h2, -⟩ := hpr.find?_left hp hs hx
    exact ⟨s', hs', h1.trans hsp, h2.trans hsd⟩
  · obtain ⟨s, hs, hx⟩ := hpr.find?_before hp hs'
    obtain ⟨q, qs, hq, hqs, hlt, hd, hm⟩ := wf.parent id s hs hr
    -- The parent is left too: what is below the parent is below what the parent is below.
    have hqx : ∀ c ∈ l, ¬ t.Below c q := fun c hc hb => hx c hc (wf.below_step hs hq hb)
    obtain ⟨s'', hs'', h1, h2, -⟩ := hpr.find?_left hp hs hx
    obtain ⟨qs', hqs', -, hqd, -, -, hqc⟩ := hpr.find?_left hp hqs hqx
    rw [hs'] at hs''
    cases hs''
    refine ⟨q, qs', h1.trans hq, hqs', hlt, by omega, (hqc id).2 ⟨hm, ?_⟩⟩
    rintro ⟨-, hid⟩
    exact hx id hid (wf.below_refl hs)
  · obtain ⟨s, hs, hx⟩ := hpr.find?_before hp hs'
    obtain ⟨s'', hs'', -, -, -, -, hch⟩ := hpr.find?_left hp hs hx
    rw [hs'] at hs''
    cases hs''
    obtain ⟨hds, hnl⟩ := (hch d).1 hd
    obtain ⟨cs, hcs, hcp⟩ := wf.child id s d hs hds
    have hdx : ∀ c ∈ l, ¬ t.Below c d := fun c hc hb => by
      obtain ⟨ds, hds', rfl | ⟨q, hq, hbq⟩⟩ := wf.below_iff.1 hb
      · obtain ⟨cs', hcs', hcp'⟩ := hl c hc
        rw [hcs] at hcs'
        cases hcs'
        rw [hcp] at hcp'
        cases hcp'
        exact hnl ⟨rfl, hc⟩
      · rw [hcs] at hds'
        cases hds'
        rw [hcp] at hq
        cases hq
        exact hx c hc hbq
    obtain ⟨cs', hcs', h1, -⟩ := hpr.find?_left hp hcs hdx
    exact ⟨cs', hcs', h1.trans hcp⟩
  · obtain ⟨s, hs, -⟩ := hpr.find?_before hp hs'
    rw [hpr.next]
    exact wf.bound id s hs

end Pruned

/-- Below what is left lies what lay there, but for the scope that is gone and all below it. -/
theorem Pruned.below_iff (hpr : t.Pruned p ps [c] t') (wf : t.WellFormed)
    (hps : t.find? p = some ps) (hc : t.find? c = some s) (hp : s.parent = some p) :
    t'.Below a x ↔ t.Below a x ∧ ¬ t.Below c x := by
  have wf' := hpr.wellFormed wf hps (areChildren_singleton hc hp)
  rw [(hpr.trimmed hps).below_iff wf wf']
  simp

/-- What is found in a tree without the scope `c`. -/
theorem Pruned.find?_eq (hpr : t.Pruned p ps [c] t') (x : ScopeId) :
    t'.find? x = if t.Below c x then none
      else if x = p then some (ps.absorb c (t.residue c)) else t.find? x := by
  by_cases hb : t.Below c x
  · rw [if_pos hb]
    exact hpr.gone c List.mem_cons_self x hb
  · rw [if_neg hb]
    by_cases hx : x = p
    · rw [if_pos hx, hx]
      exact hpr.parent
    · rw [if_neg hx]
      exact hpr.kept x hx fun d hd => (List.mem_singleton.1 hd).symm ▸ hb

theorem Pruned.nil (h : t.find? p = some ps) : t.Pruned p ps [] t :=
  ⟨rfl, fun _ hc => (List.not_mem_nil hc).elim, h, fun _ _ _ => rfl⟩

/-- Children of one scope can be pruned one after the other. -/
theorem Pruned.cons (wf : t.WellFormed) (hp : t.find? p = some ps) (hl : t.AreChildren p (c :: l))
    (hcl : c ∉ l) (h₁ : t.Pruned p ps [c] u)
    (h₂ : u.Pruned p (ps.absorb c (t.residue c)) l t') : t.Pruned p ps (c :: l) t' := by
  obtain ⟨cs, hcs, hcp⟩ := hl c List.mem_cons_self
  have hl₁ : t.AreChildren p [c] := fun d hd => hl d (by simp_all)
  have wfu := h₁.wellFormed wf hp hl₁
  -- The other children and all below them are untouched by the first step.
  have hfree : ∀ d ∈ l, ∀ x, t.Below d x → ¬ t.Below c x := fun d hd x hdx hcx => by
    obtain ⟨ds, hds, hdp⟩ := hl d (List.mem_cons_of_mem _ hd)
    exact hcl (wf.below_unique hcs hcp hds hdp hcx hdx ▸ hd)
  have hbelow : ∀ d ∈ l, ∀ x, u.Below d x ↔ t.Below d x := fun d hd x => by
    rw [(h₁.trimmed hp).below_iff wf wfu]
    exact ⟨fun h => h.1, fun h => ⟨h, fun e he => by simp at he; exact he ▸ hfree d hd x h⟩⟩
  have hres : ∀ d ∈ l, u.residue d = t.residue d := fun d hd => by
    obtain ⟨ds, hds, hdp⟩ := hl d (List.mem_cons_of_mem _ hd)
    unfold residue
    rw [h₁.next]
    refine wf.residueWithin_congr (Nat.le_refl _) (Nat.le_refl _) hds fun x hx => ?_
    have hxp : x ≠ p := fun he => wf.not_below_parent hds hdp (he ▸ hx)
    exact h₁.kept x hxp fun e he => by simp at he; exact he ▸ hfree d hd x hx
  refine ⟨h₂.next.trans h₁.next, fun d hd x hx => ?_, ?_, fun x hxp hx => ?_⟩
  · rcases List.mem_cons.1 hd with rfl | hd
    · have hxp : x ≠ p := fun he => wf.not_below_parent hcs hcp (he ▸ hx)
      have hux : u.find? x = none := h₁.gone d List.mem_cons_self x hx
      refine (h₂.kept x hxp fun e he hb => ?_).trans hux
      obtain ⟨xs, hxs⟩ := wfu.find?_of_below hb
      rw [hux] at hxs
      cases hxs
    · exact h₂.gone d hd x ((hbelow d hd x).2 hx)
  · rw [h₂.parent, Scope.absorbAll_cons, Scope.absorbAll_congr hres]
  · rw [h₂.kept x hxp fun d hd hb => hx d (List.mem_cons_of_mem _ hd) ((hbelow d hd x).1 hb)]
    exact h₁.kept x hxp fun e he => by simp at he; exact he ▸ hx c List.mem_cons_self

/-! ## Removal -/

private theorem foldlM_removeWithin {limit : Nat}
    (ih : ∀ {t : ScopeTree} {id p : ScopeId} {s ps : Scope}, t.WellFormed → t.find? id = some s →
      s.parent = some p → t.find? p = some ps → t.nextId - id ≤ limit →
      ∃ t', removeWithin limit id t = .ok t' ∧ t.Pruned p ps [id] t')
    (wf : t.WellFormed) (hp : t.find? p = some ps) (hl : t.AreChildren p l) (hn : l.Nodup)
    (hlimit : ∀ c ∈ l, t.nextId - c ≤ limit) :
    ∃ t', l.foldlM (fun t child => removeWithin limit child t) t = .ok t' ∧
      t.Pruned p ps l t' := by
  induction l generalizing t ps with
  | nil => exact ⟨t, rfl, .nil hp⟩
  | cons c l ihl =>
    obtain ⟨hcl, hn⟩ := List.nodup_cons.1 hn
    obtain ⟨cs, hcs, hcp⟩ := hl c List.mem_cons_self
    have hl₁ : t.AreChildren p [c] := fun d hd => hl d (by simp_all)
    obtain ⟨u, hu, h₁⟩ := ih wf hcs hcp hp (hlimit c List.mem_cons_self)
    have hkids : u.AreChildren p l := fun d hd => by
      obtain ⟨ds, hds, hdp⟩ := hl d (List.mem_cons_of_mem _ hd)
      have hdx : ∀ e ∈ [c], ¬ t.Below e d := fun e he hb => by
        simp at he
        subst he
        exact hcl (wf.below_unique hcs hcp hds hdp hb (wf.below_refl hds) ▸ hd)
      obtain ⟨ds', hds', h, -⟩ := h₁.find?_left hp hds hdx
      exact ⟨ds', hds', h.trans hdp⟩
    obtain ⟨t', ht', h₂⟩ := ihl (h₁.wellFormed wf hp hl₁) h₁.parent hkids hn
      fun d hd => h₁.next ▸ hlimit d (List.mem_cons_of_mem _ hd)
    refine ⟨t', ?_, .cons wf hp hl hcl h₁ h₂⟩
    rw [List.foldlM_cons, hu]
    exact ht'

private theorem pruned_detach (wf : t.WellFormed) (h : t.find? id = some s)
    (hp : s.parent = some p) (hps : t.find? p = some ps) (hu : t.Pruned id s s.children.keys u) :
    t.Pruned p ps [id] (u.detach id (t.residue id)) := by
  have hlt := wf.parent_lt h hp
  have hpid : p ≠ id := Nat.ne_of_lt hlt
  have hkid : ∀ {c}, c ∈ s.children.keys → t.Below id c := fun {c} hc => by
    obtain ⟨cs, hcs, hcp⟩ := wf.child id s c h (Table.mem_keys.1 hc)
    exact wf.below_step hcs hcp (wf.below_refl h)
  have hres : (t.residue id).parent = some p := by
    rw [wf.residue_eq h, (s.absorbAll_place _ _).1, hp]
  have hfind : ∀ x, (u.detach id (t.residue id)).find? x =
      if p = x then (u.find? x).map fun q => q.absorb id (t.residue id)
      else if id = x then none else u.find? x := fun x => by
    unfold detach
    rw [hres]
    simp only
    rw [find?_modify]
    have he : ScopeTree.find? { u with scopes := u.scopes.erase id } x =
        if id = x then none else u.find? x := Table.find?_erase u.scopes id x
    rw [he]
    by_cases hpx : p = x
    · subst hpx
      simp [hpid.symm]
    · simp [hpx]
  refine ⟨?_, fun c hc x hx => ?_, ?_, fun x hxp hx => ?_⟩
  · unfold detach
    rw [hres]
    exact hu.next
  · simp at hc
    subst hc
    have hle := wf.le_of_below hx
    have hpx : p ≠ x := Nat.ne_of_lt (Nat.lt_of_lt_of_le hlt hle)
    rw [hfind, if_neg hpx]
    rcases wf.below_top hx with rfl | ⟨d, ds, hds, hdp, hdx⟩
    · rw [if_pos rfl]
    · obtain ⟨s', hs', -, -, hmem⟩ := wf.find?_parent hds hdp
      rw [h] at hs'
      cases hs'
      rw [hu.gone d (Table.mem_keys.2 hmem) x hdx]
      split <;> rfl
  · have hup : u.find? p = some ps := by
      rw [hu.kept p hpid fun c hc hb => ?_, hps]
      exact wf.not_below_parent h hp (wf.below_trans (hkid hc) hb)
    rw [hfind, if_pos rfl, hup]
    rfl
  · have hidx : id ≠ x := fun he => hx id List.mem_cons_self (he ▸ wf.below_refl h)
    rw [hfind, if_neg (Ne.symm hxp), if_neg hidx]
    exact hu.kept x (Ne.symm hidx) fun c hc hb =>
      hx id List.mem_cons_self (wf.below_trans (hkid hc) hb)

/-- A scope is detached from a tree without its children. -/
private theorem removeWithin_children {limit : Nat}
    (ih : ∀ {t : ScopeTree} {id p : ScopeId} {s ps : Scope}, t.WellFormed → t.find? id = some s →
      s.parent = some p → t.find? p = some ps → t.nextId - id ≤ limit →
      ∃ t', removeWithin limit id t = .ok t' ∧ t.Pruned p ps [id] t')
    (wf : t.WellFormed) (h : t.find? id = some s) (hl : t.nextId - id ≤ limit + 1) :
    ∃ u, t.Pruned id s s.children.keys u ∧
      removeWithin (limit + 1) id t = .ok (u.detach id (t.residue id)) := by
  have hkids : t.AreChildren id s.children.keys := fun c hc =>
    wf.child id s c h (Table.mem_keys.1 hc)
  obtain ⟨u, hu, hpr⟩ := foldlM_removeWithin ih wf h hkids s.children.nodup_keys
    fun c hc => levels_step hl (wf.child_lt h (Table.mem_keys.1 hc))
  refine ⟨u, hpr, ?_⟩
  have hud : u.get id = .ok (t.residue id) := get_of_find? (by rw [hpr.parent, wf.residue_eq h])
  unfold removeWithin
  rw [get_of_find? h]
  show (s.children.keys.foldlM (fun t child => removeWithin limit child t) t >>= fun t => do
    let s ← t.get id
    return t.detach id s) = _
  rw [hu]
  show (u.get id >>= fun s => Except.ok (u.detach id s)) = _
  rw [hud]
  rfl

private theorem removeWithin_eq {limit : Nat} (wf : t.WellFormed) (h : t.find? id = some s)
    (hp : s.parent = some p) (hps : t.find? p = some ps) (hl : t.nextId - id ≤ limit) :
    ∃ t', removeWithin limit id t = .ok t' ∧ t.Pruned p ps [id] t' := by
  induction limit generalizing t id p s ps with
  | zero => exact absurd hl (levels_pos (wf.bound id s h))
  | succ limit ih =>
    obtain ⟨u, hpr, hu⟩ := removeWithin_children ih wf h hl
    exact ⟨_, hu, pruned_detach wf h hp hps hpr⟩

/-- With the root, the whole tree goes. -/
private theorem remove_root (wf : t.WellFormed) :
    ∃ u, t.remove root = .ok u ∧ ∀ x, u.find? x = none := by
  obtain ⟨s, hs, hp, -⟩ := wf.root
  obtain ⟨limit, hlimit⟩ : ∃ limit, t.nextId - root = limit + 1 :=
    Nat.exists_eq_add_one.2 (Nat.sub_pos_of_lt (wf.bound root s hs))
  obtain ⟨u, hpr, hu⟩ := removeWithin_children removeWithin_eq wf hs (Nat.le_of_eq hlimit)
  have hres : (t.residue root).parent = none := by
    rw [wf.residue_eq hs, (s.absorbAll_place _ _).1, hp]
  refine ⟨_, by rw [remove, hlimit, hu], fun x => ?_⟩
  have hfind : (u.detach root (t.residue root)).find? x = if root = x then none else u.find? x := by
    unfold detach
    rw [hres]
    exact Table.find?_erase u.scopes root x
  rw [hfind]
  split
  · rfl
  · rename_i hx
    cases ht : t.find? x with
    | none =>
      refine (hpr.kept x (Ne.symm hx) fun c _ hb => ?_).trans ht
      obtain ⟨xs, hxs⟩ := wf.find?_of_below hb
      rw [ht] at hxs
      cases hxs
    | some xs =>
      rcases wf.below_top (wf.below_root ht) with hroot | ⟨c, cs, hcs, hcp, hb⟩
      · exact absurd hroot.symm hx
      · obtain ⟨s', hs', -, -, hmem⟩ := wf.find?_parent hcs hcp
        rw [hs] at hs'
        cases hs'
        exact hpr.gone c (Table.mem_keys.2 hmem) x hb

/-- **Removal.** Removing a scope other than the root succeeds. It takes away the scope and all
below it, and the parent takes over what they leave. -/
theorem WellFormed.remove (wf : t.WellFormed) (h : t.find? id = some s) (hp : s.parent = some p)
    (hps : t.find? p = some ps) : ∃ t', t.remove id = .ok t' ∧ t.Pruned p ps [id] t' :=
  removeWithin_eq wf h hp hps (Nat.le_refl _)

/-- Removing a registered scope succeeds, and just the scopes below it are gone. -/
theorem WellFormed.find?_remove (wf : t.WellFormed) (h : t.find? id = some s) :
    ∃ u, t.remove id = .ok u ∧ ∀ x, (∃ s', u.find? x = some s') ↔
      (∃ s, t.find? x = some s) ∧ ¬ t.Below id x := by
  by_cases hid : id = ScopeTree.root
  · subst hid
    obtain ⟨u, hu, hnone⟩ := remove_root wf
    refine ⟨u, hu, fun x => ⟨?_, ?_⟩⟩
    · rintro ⟨s', hs'⟩
      rw [hnone x] at hs'
      cases hs'
    · rintro ⟨⟨xs, hxs⟩, hb⟩
      exact absurd (wf.below_root hxs) hb
  · obtain ⟨p, ps, hp, hps, -⟩ := wf.parent id s h hid
    obtain ⟨u, hu, hpr⟩ := wf.remove h hp hps
    refine ⟨u, hu, fun x => ⟨?_, ?_⟩⟩
    · rintro ⟨s', hs'⟩
      obtain ⟨xs, hxs, hb⟩ := hpr.find?_before hps hs'
      exact ⟨⟨xs, hxs⟩, hb id List.mem_cons_self⟩
    · rintro ⟨⟨xs, hxs⟩, hb⟩
      obtain ⟨s', hs', -⟩ := hpr.find?_left hps hxs fun c hc =>
        (List.mem_singleton.1 hc).symm ▸ hb
      exact ⟨s', hs'⟩

/-- A removal that comes to its end goes the same way with a larger bound. -/
theorem removeWithin_mono {limit limit' : Nat} (hle : limit ≤ limit')
    (h : removeWithin limit id t = .ok u) : removeWithin limit' id t = .ok u := by
  induction limit generalizing limit' id t u with
  | zero => cases h
  | succ limit ih =>
    obtain ⟨limit', rfl⟩ : ∃ k, limit' = k + 1 := Nat.exists_eq_add_one.2 (by omega)
    have hfold : ∀ (l : List ScopeId) (t u : ScopeTree),
        l.foldlM (fun t child => removeWithin limit child t) t = .ok u →
        l.foldlM (fun t child => removeWithin limit' child t) t = .ok u := fun l => by
      induction l with
      | nil => exact fun t u h => h
      | cons c l ihl =>
        intro t u h
        rw [List.foldlM_cons] at h ⊢
        obtain ⟨v, hc, h⟩ := exists_ok_of_bind h
        rw [ih (Nat.le_of_succ_le_succ hle) hc]
        exact ihl v u h
    obtain ⟨s, hs, h⟩ := exists_ok_of_bind h
    obtain ⟨v, hv, h⟩ := exists_ok_of_bind h
    unfold removeWithin
    rw [hs]
    show (s.children.keys.foldlM (fun t child => removeWithin limit' child t) t >>= _) = _
    rw [hfold _ _ _ hv]
    exact h

theorem remove_of_none (h : t.find? id = none) : ∃ e, t.remove id = .error e := by
  have hg : ∃ e, t.get id = .error e := by
    unfold get
    rw [h]
    exact ⟨_, rfl⟩
  obtain ⟨e, hg⟩ := hg
  unfold remove
  cases t.nextId - id with
  | zero => exact ⟨_, rfl⟩
  | succ limit =>
    refine ⟨e, ?_⟩
    unfold removeWithin
    rw [hg]
    rfl

/-! ## Releases -/

theorem release_of_pending (h : t.find? id = some s) (hr : id ≠ ScopeTree.root)
    (hp : t.hasPending id) : t.release id = .ok (.deferred, t.mark id s) := by
  unfold release
  rw [if_neg hr, h]
  simp only
  rw [if_pos hp]

theorem WellFormed.release_of_idle (wf : t.WellFormed) (h : t.find? id = some s)
    (hp : s.parent = some p) (hps : t.find? p = some ps) (hi : ¬ t.hasPending id) :
    ∃ t', t.release id = .ok (.removed, t') ∧ t.Pruned p ps [id] t' := by
  obtain ⟨t', ht', hpr⟩ := wf.remove h hp hps
  refine ⟨t', ?_, hpr⟩
  unfold release
  rw [if_neg (wf.ne_root h hp), h]
  simp only
  rw [if_neg hi, ht']
  rfl

/-- Marking a scope hands its markers to the parent and changes nothing else. -/
theorem find?_mark (h : t.find? id = some s) (hp : s.parent = some p) (hne : p ≠ id) (x : ScopeId) :
    (t.mark id s).find? x =
      if x = id then some { s with marked := true }
      else if x = p then
        (t.find? p).map fun q => { q with executed := KeySet.union q.executed s.executed }
      else t.find? x := by
  have hm : t.mark id s = (t.modify id fun s => { s with marked := true }).modify p fun q =>
      { q with executed := KeySet.union q.executed s.executed } := by
    unfold mark
    rw [hp]
  rw [hm, find?_modify, find?_modify]
  by_cases hx : x = id
  · subst hx
    rw [if_neg hne, if_pos rfl, if_pos rfl, h]
    rfl
  · by_cases hxp : x = p
    · subst hxp
      rw [if_pos rfl, if_neg (Ne.symm hx), if_neg hx, if_pos rfl]
    · rw [if_neg (Ne.symm hxp), if_neg (Ne.symm hx), if_neg hx, if_neg hxp]

theorem find?_of_mark (h : t.find? id = some s) (hp : s.parent = some p) (hne : p ≠ id) {s' : Scope}
    (hs' : (t.mark id s).find? x = some s') : ∃ xs, t.find? x = some xs ∧
      s'.pending = xs.pending ∧ (s'.marked = true ↔ x = id ∨ xs.marked = true) := by
  rw [find?_mark h hp hne] at hs'
  split at hs'
  · rename_i hx
    subst hx
    cases hs'
    exact ⟨s, h, rfl, by simp⟩
  · rename_i hx
    split at hs'
    · rename_i hxp
      subst hxp
      obtain ⟨xs, hxs, rfl⟩ := Option.map_eq_some_iff.1 hs'
      exact ⟨xs, hxs, rfl, by simp [hx]⟩
    · exact ⟨s', hs', rfl, by simp [hx]⟩

theorem nextId_mark (t : ScopeTree) (id : ScopeId) (s : Scope) :
    (t.mark id s).nextId = t.nextId := by
  unfold mark
  split <;> rfl

theorem sameLinks_mark (t : ScopeTree) (id : ScopeId) (s : Scope) : SameLinks t (t.mark id s) := by
  have h₁ : SameLinks t (t.modify id fun s => { s with marked := true }) :=
    sameLinks_modify t id fun _ => rfl
  unfold mark
  split
  · exact h₁
  · exact h₁.trans (sameLinks_modify _ _ fun _ => rfl)

theorem WellFormed.mark (wf : t.WellFormed) (id : ScopeId) (s : Scope) :
    (t.mark id s).WellFormed :=
  wf.of_links (sameLinks_mark t id s) (Nat.le_of_eq (nextId_mark t id s).symm)

/-! ## Starts and ends of tasks -/

theorem beginTask_of_find? (h : t.find? id = some s) :
    t.beginTask id = .ok (t.modify id fun s => { s with pending := s.pending + 1 }) := by
  unfold beginTask
  rw [get_of_find? h]
  rfl

theorem WellFormed.chain_pairwise (wf : t.WellFormed) (x : ScopeId) :
    (t.chain x).Pairwise fun a b => b < a := by
  induction x using Nat.strongRecOn with
  | ind x ih =>
    cases hx : t.find? x with
    | none => rw [chain_of_none hx]; exact .nil
    | some s =>
      rw [wf.chain_of_find? hx]
      cases hp : s.parent with
      | none => exact List.pairwise_singleton _ _
      | some p =>
        have hlt := wf.parent_lt hx hp
        exact List.pairwise_cons.2 ⟨fun a ha => Nat.lt_of_le_of_lt (wf.le_of_below ha) hlt, ih p hlt⟩

theorem mem_ready : a ∈ t.ready x ↔
    t.Below a x ∧ (∃ s, t.find? a = some s ∧ s.marked) ∧ ¬ t.hasPending a := by
  unfold ready Below
  rw [List.mem_filter, Bool.and_eq_true, Option.any_eq_true, Bool.not_eq_true',
    Bool.not_eq_true]

theorem discard_of_remove (h : t.remove id = .ok u) : t.discard id = u := by
  unfold discard
  rw [h]

/-- Removing scopes one after the other trims the tree. From the inside to the outside, no removal
fails. -/
theorem WellFormed.foldl_discard (wf : t.WellFormed) (hl : ∀ r ∈ l, r ≠ ScopeTree.root) :
    (l.foldl discard t).WellFormed ∧ Trimmed l t (l.foldl discard t) ∧
      (l.Pairwise (fun a b => b < a) → (∀ r ∈ l, ∃ s, t.find? r = some s) →
        l.foldlM (fun t r => t.remove r) t = .ok (l.foldl discard t)) := by
  induction l generalizing t with
  | nil => exact ⟨wf, ⟨rfl, fun _ h => (List.not_mem_nil h).elim,
      fun x s hs _ => ⟨s, hs, rfl, rfl, rfl⟩, fun x s' hs' => ⟨s', hs'⟩⟩, fun _ _ => rfl⟩
  | cons r l ih =>
    have hroot := hl r List.mem_cons_self
    have hl' : ∀ r ∈ l, r ≠ ScopeTree.root := fun r hr => hl r (List.mem_cons_of_mem _ hr)
    rw [List.foldl_cons]
    cases hr : t.find? r with
    | none =>
      obtain ⟨e, he⟩ := remove_of_none hr
      have hd : t.discard r = t := by unfold discard; rw [he]
      obtain ⟨wf', ht, -⟩ := ih wf hl'
      have hnone : ∀ x, ¬ t.Below r x := fun x hb => by
        obtain ⟨s, hs⟩ := wf.find?_of_above hb
        rw [hr] at hs
        cases hs
      rw [hd]
      refine ⟨wf', ⟨ht.next, fun q hq x hb => ?_, fun x s hs hx => ?_, ht.old⟩, fun _ hreg => ?_⟩
      · rcases List.mem_cons.1 hq with rfl | hq
        · exact absurd hb (hnone x)
        · exact ht.gone q hq x hb
      · exact ht.kept x s hs fun q hq => hx q (List.mem_cons_of_mem _ hq)
      · obtain ⟨s, hs⟩ := hreg r List.mem_cons_self
        rw [hr] at hs
        cases hs
    | some s =>
      obtain ⟨p, ps, hp, hps, -⟩ := wf.parent r s hr hroot
      obtain ⟨u, hu, hpr⟩ := wf.remove hr hp hps
      have wfu := hpr.wellFormed wf hps (areChildren_singleton hr hp)
      have hd : t.discard r = u := discard_of_remove hu
      obtain ⟨wf', ht, hok⟩ := ih wfu hl'
      rw [hd]
      refine ⟨wf', (hpr.trimmed hps).append wf wfu ht, fun hpw hreg => ?_⟩
      obtain ⟨hlt, hpw⟩ := List.pairwise_cons.1 hpw
      rw [List.foldlM_cons, hu]
      refine hok hpw fun q hq => ?_
      obtain ⟨qs, hqs⟩ := hreg q (List.mem_cons_of_mem _ hq)
      obtain ⟨qs', hqs', -⟩ := (hpr.trimmed hps).kept q qs hqs fun c hc hb => by
        simp at hc
        exact Nat.not_lt.2 (wf.le_of_below hb) (hc ▸ hlt q hq)
      exact ⟨qs', hqs'⟩

/-- The tree after a task of `owner` is no longer counted, before scopes are removed. -/
def discount (t : ScopeTree) (owner : ScopeId) : ScopeTree :=
  t.modify owner fun s => { s with pending := s.pending - 1 }

theorem sameLinks_discount (t : ScopeTree) (owner : ScopeId) : SameLinks t (t.discount owner) :=
  sameLinks_modify t owner fun _ => rfl

theorem WellFormed.discount (wf : t.WellFormed) (owner : ScopeId) :
    (t.discount owner).WellFormed :=
  wf.of_links (sameLinks_discount t owner) (Nat.le_refl _)

theorem find?_discount (owner : ScopeId) (h : t.find? x = some s) :
    (t.discount owner).find? x =
      some { s with pending := if owner = x then s.pending - 1 else s.pending } := by
  unfold discount
  rw [find?_modify, h]
  split <;> rfl

/-- **End of a task.** The scopes that only waited for the task are trimmed; none of the removals
fails. -/
theorem WellFormed.endTask (wf : t.WellFormed) (owner : ScopeId)
    (hroot : ∀ s, t.find? ScopeTree.root = some s → s.marked = false) :
    (t.endTask owner).WellFormed ∧
      Trimmed ((t.discount owner).ready owner) (t.discount owner) (t.endTask owner) ∧
      ((t.discount owner).ready owner).foldlM (fun t r => t.remove r) (t.discount owner) =
        .ok (t.endTask owner) := by
  have wfd := wf.discount owner
  have hne : ∀ r ∈ (t.discount owner).ready owner, r ≠ ScopeTree.root := by
    rintro r hr rfl
    obtain ⟨-, ⟨s, hs, hm⟩, -⟩ := mem_ready.1 hr
    obtain ⟨s₀, hs₀, -⟩ := (sameLinks_discount t owner).symm.find? hs
    rw [find?_discount owner hs₀] at hs
    cases hs
    exact Bool.false_ne_true ((hroot s₀ hs₀).symm.trans hm)
  obtain ⟨wf', ht, hok⟩ := wfd.foldl_discard hne
  refine ⟨wf', ht, hok ((wfd.chain_pairwise owner).filter _) fun r hr => ?_⟩
  obtain ⟨-, ⟨s, hs, -⟩, -⟩ := mem_ready.1 hr
  exact ⟨s, hs⟩

end ScopeTree

end TreeScript
