import TreeScript.Proofs.Step
import TreeScript.Proofs.Table
import TreeScript.Scope.Tree

/-!
# Scopes form a tree

A `ScopeTree` keeps the tree twice, as parents and as sets of children, in a table under ids that
count up. `WellFormed` says that the two agree and that ids are older than `nextId`.

* `chain_of_find?`: the ids on the way to the root, one parent at a time.
* `Below a x`: the scope `x` is `a` or lies below it, that is, `a` is on the way from `x` to the
  root. `below_iff` goes one step up from `x`, `Below.top` one step down from `a`, and
  `WellFormed.below_induction` is the induction from `a` down to `x`.
* `hasPending_iff`: tasks are pending in a scope or below it exactly if some scope below it counts
  one. The bound of the search is enough, because children are younger than their parents.
* `WellFormed.of_links`: well-formedness reads the parents, depths and children only
  (`Scope.links`).
* `Created`: what a new scope changes.
-/

namespace TreeScript

/-- What places a scope in its tree: its parent, its depth and its children. -/
def Scope.links (s : Scope) : Option ScopeId × Nat × KeySet ScopeId := (s.parent, s.depth, s.children)

namespace ScopeTree

variable {t t' : ScopeTree} {id a b x p : ScopeId} {s ps : Scope}

theorem contains_iff : t.contains id ↔ ∃ s, t.find? id = some s := Table.contains_iff

theorem find?_modify (t : ScopeTree) (id id' : ScopeId) (f : Scope → Scope) :
    (t.modify id f).find? id' = if id = id' then (t.find? id').map f else t.find? id' :=
  Table.find?_modify t.scopes id id' f

theorem find?_modify_self (h : t.find? id = some s) (f : Scope → Scope) :
    (t.modify id f).find? id = some (f s) := by
  rw [find?_modify, if_pos rfl, h, Option.map_some]

theorem find?_modify_ne (h : id ≠ x) (f : Scope → Scope) :
    (t.modify id f).find? x = t.find? x := by
  rw [find?_modify, if_neg h]

theorem find?_of_modify {f : Scope → Scope} (h : (t.modify id f).find? x = some s) :
    ∃ s', t.find? x = some s' ∧ (s = f s' ∨ s = s') := by
  rw [find?_modify] at h
  split at h
  · obtain ⟨s', hs', rfl⟩ := Option.map_eq_some_iff.1 h
    exact ⟨s', hs', .inl rfl⟩
  · exact ⟨s, h, .inr rfl⟩

theorem get_of_find? (h : t.find? id = some s) : t.get id = .ok s := by
  unfold get
  rw [h]

theorem find?_of_get (h : t.get id = .ok s) : t.find? id = some s := by
  unfold get at h
  split at h
  · rename_i s' hs
    cases h
    exact hs
  · cases h

/-- What has succeeded after a scope was asked for has found the scope. -/
theorem find?_of_get_bind {α : Type} {f : Scope → Except Error α} {a : α}
    (h : (t.get id >>= f) = .ok a) : ∃ c, t.find? id = some c ∧ f c = .ok a := by
  obtain ⟨c, hc, h⟩ := exists_ok_of_bind h
  exact ⟨c, find?_of_get hc, h⟩

/-- A tree whose scopes are linked in both directions. -/
structure WellFormed (t : ScopeTree) : Prop where
  root : ∃ s, t.find? root = some s ∧ s.parent = none ∧ s.depth = 0
  parent : ∀ id s, t.find? id = some s → id ≠ ScopeTree.root → ∃ p ps, s.parent = some p ∧
    t.find? p = some ps ∧ p < id ∧ s.depth = ps.depth + 1 ∧ ps.children.contains id
  child : ∀ id s c, t.find? id = some s → s.children.contains c →
    ∃ cs, t.find? c = some cs ∧ cs.parent = some id
  bound : ∀ id s, t.find? id = some s → id < t.nextId

theorem find?_initial (id : ScopeId) :
    initial.find? id = if id = root then some (.fresh none 0) else none := by
  show ((Table.empty : Table ScopeId Scope).insert root (.fresh none 0)).find? id = _
  rw [Table.find?_insert, Table.find?_empty]

theorem eq_fresh_of_find?_initial {id : ScopeId} {s : Scope} (h : initial.find? id = some s) :
    s = .fresh none 0 := by
  rw [find?_initial] at h
  split at h
  · cases h
    rfl
  · cases h

theorem wellFormed_initial : initial.WellFormed := by
  refine ⟨⟨_, by rw [find?_initial]; rfl, rfl, rfl⟩, fun id s h hr => ?_, fun id s c h hc => ?_,
    fun id s h => ?_⟩
  · rw [find?_initial, if_neg hr] at h
    cases h
  · rw [find?_initial] at h
    split at h
    · cases h
      exact absurd hc (KeySet.not_contains_empty c)
    · cases h
  · rw [find?_initial] at h
    split at h
    · rename_i hid
      subst hid
      exact Nat.one_pos
    · cases h

namespace WellFormed

/-- The parent of a scope is registered, older, and lists the scope. -/
theorem find?_parent (wf : t.WellFormed) (h : t.find? x = some s) (hp : s.parent = some p) :
    ∃ ps, t.find? p = some ps ∧ p < x ∧ s.depth = ps.depth + 1 ∧ ps.children.contains x := by
  by_cases hx : x = ScopeTree.root
  · obtain ⟨rs, hr, hn, -⟩ := wf.root
    rw [hx, hr] at h
    cases h
    rw [hn] at hp
    cases hp
  · obtain ⟨q, qs, hq, hqs, hlt, hd, hc⟩ := wf.parent x s h hx
    rw [hp] at hq
    cases hq
    exact ⟨qs, hqs, hlt, hd, hc⟩

theorem parent_lt (wf : t.WellFormed) (h : t.find? x = some s) (hp : s.parent = some p) :
    p < x := (wf.find?_parent h hp).choose_spec.2.1

/-- A child is younger than its parent. -/
theorem child_lt (wf : t.WellFormed) (h : t.find? a = some s) (hc : s.children.contains x) :
    a < x := by
  obtain ⟨cs, hcs, hp⟩ := wf.child a s x h hc
  exact wf.parent_lt hcs hp

theorem ne_root (wf : t.WellFormed) (h : t.find? x = some s) (hp : s.parent = some p) :
    x ≠ ScopeTree.root := by
  rintro rfl
  exact Nat.not_lt_zero _ (wf.parent_lt h hp)

end WellFormed

/-! ## The way to the root -/

private theorem lineage_eq_nil {l : List (ScopeId × Scope)} (h : Table.lookup id l = none) :
    lineage id l = [] := by
  induction l with
  | nil => rfl
  | cons e older ih =>
    obtain ⟨i, s⟩ := e
    simp only [Table.lookup] at h
    split at h
    · cases h
    · rename_i hne
      rw [lineage, if_neg (Ne.symm hne), ih h]

/-- A list from the newest to the oldest scope is searched for the parent behind the child, which
is as good as searching all of it. -/
private theorem lineage_eq_cons {l : List (ScopeId × Scope)}
    (hl : l.Pairwise fun a b => b.1 < a.1) (h : Table.lookup id l = some s)
    (hp : ∀ p, s.parent = some p → p < id) :
    lineage id l = (id, s) :: match s.parent with
      | none => []
      | some p => lineage p l := by
  induction l with
  | nil => cases h
  | cons e older ih =>
    obtain ⟨i, s'⟩ := e
    obtain ⟨hi, ho⟩ := List.pairwise_cons.1 hl
    simp only [Table.lookup] at h
    split at h
    · rename_i hid
      subst hid
      cases h
      rw [lineage, if_pos rfl]
      cases hq : s.parent with
      | none => rfl
      | some p =>
        have hlt := hp p hq
        simp only
        rw [lineage, if_neg (Nat.ne_of_gt hlt)]
    · rename_i hne
      rw [lineage, if_neg (Ne.symm hne), ih ho h]
      cases hq : s.parent with
      | none => rfl
      | some p =>
        have hid : id < i := hi _ (Table.mem_of_lookup h)
        have hlt := hp p hq
        simp only
        rw [lineage, if_neg (Nat.ne_of_gt (Nat.lt_trans hlt hid))]

theorem lookup_newestFirst (t : ScopeTree) (id : ScopeId) :
    Table.lookup id t.scopes.entries.reverse = t.find? id :=
  Table.lookup_reverse t.scopes.distinct id

theorem newestFirst (t : ScopeTree) :
    t.scopes.entries.reverse.Pairwise fun a b => b.1 < a.1 :=
  List.pairwise_reverse.2 (t.scopes.sorted.imp fun h => Nat.compare_eq_lt.1 h)

theorem ancestry_of_none (h : t.find? id = none) : t.ancestry id = [] :=
  lineage_eq_nil ((t.lookup_newestFirst id).trans h)

/-- A scope comes before the ancestry of its parent. -/
theorem WellFormed.ancestry_of_find? (wf : t.WellFormed) (h : t.find? id = some s) :
    t.ancestry id = (id, s) :: match s.parent with
      | none => []
      | some p => t.ancestry p :=
  lineage_eq_cons t.newestFirst ((t.lookup_newestFirst id).trans h) fun _ => wf.parent_lt h

theorem chain_of_none (h : t.find? id = none) : t.chain id = [] := by
  rw [chain, ancestry_of_none h, List.map_nil]

theorem WellFormed.chain_of_find? (wf : t.WellFormed) (h : t.find? id = some s) :
    t.chain id = id :: match s.parent with
      | none => []
      | some p => t.chain p := by
  unfold chain
  rw [wf.ancestry_of_find? h, List.map_cons]
  cases s.parent <;> rfl

/-! ## Scopes below a scope -/

/-- The scope `x` is `a` or lies below `a`. -/
def Below (t : ScopeTree) (a x : ScopeId) : Prop := a ∈ t.chain x

instance (t : ScopeTree) (a x : ScopeId) : Decidable (t.Below a x) :=
  inferInstanceAs (Decidable (a ∈ t.chain x))

namespace WellFormed

theorem below_iff (wf : t.WellFormed) :
    t.Below a x ↔ ∃ s, t.find? x = some s ∧ (a = x ∨ ∃ p, s.parent = some p ∧ t.Below a p) := by
  unfold Below
  cases hx : t.find? x with
  | none => simp [chain_of_none hx]
  | some s =>
    rw [wf.chain_of_find? hx, List.mem_cons]
    cases hp : s.parent <;> simp [hp]

theorem below_refl (wf : t.WellFormed) (h : t.find? x = some s) : t.Below x x :=
  wf.below_iff.2 ⟨s, h, .inl rfl⟩

theorem below_step (wf : t.WellFormed) (h : t.find? x = some s) (hp : s.parent = some p)
    (hb : t.Below a p) : t.Below a x :=
  wf.below_iff.2 ⟨s, h, .inr ⟨p, hp, hb⟩⟩

/-- Induction from a scope down to one below it. -/
theorem below_induction (wf : t.WellFormed) {motive : ScopeId → Prop}
    (self : ∀ s, t.find? a = some s → motive a)
    (step : ∀ x s p, t.find? x = some s → s.parent = some p → t.Below a p → motive p → motive x)
    (h : t.Below a x) : motive x := by
  induction x using Nat.strongRecOn with
  | ind x ih =>
    obtain ⟨s, hs, rfl | ⟨p, hp, hb⟩⟩ := wf.below_iff.1 h
    · exact self s hs
    · exact step x s p hs hp hb (ih p (wf.parent_lt hs hp) hb)

theorem find?_of_below (wf : t.WellFormed) (h : t.Below a x) : ∃ s, t.find? x = some s := by
  obtain ⟨s, hs, -⟩ := wf.below_iff.1 h
  exact ⟨s, hs⟩

theorem find?_of_above (wf : t.WellFormed) (h : t.Below a x) : ∃ s, t.find? a = some s :=
  wf.below_induction (motive := fun _ => ∃ s, t.find? a = some s) (fun s hs => ⟨s, hs⟩)
    (fun _ _ _ _ _ _ ih => ih) h

theorem le_of_below (wf : t.WellFormed) (h : t.Below a x) : a ≤ x :=
  wf.below_induction (motive := fun x => a ≤ x) (fun _ _ => Nat.le_refl a)
    (fun _ _ _ hs hp _ ih => Nat.le_of_lt (Nat.lt_of_le_of_lt ih (wf.parent_lt hs hp))) h

theorem below_trans (wf : t.WellFormed) (h : t.Below a b) (h' : t.Below b x) : t.Below a x :=
  wf.below_induction (motive := fun x => t.Below a x) (fun _ _ => h)
    (fun _ _ _ hs hp _ ih => wf.below_step hs hp ih) h'

/-- A scope below `a` is `a` or lies below a child of `a`. -/
theorem below_top (wf : t.WellFormed) (h : t.Below a x) :
    x = a ∨ ∃ c cs, t.find? c = some cs ∧ cs.parent = some a ∧ t.Below c x := by
  refine wf.below_induction (motive := fun x => x = a ∨ ∃ c cs, t.find? c = some cs ∧
    cs.parent = some a ∧ t.Below c x) (fun _ _ => .inl rfl) (fun x s p hs hp _ ih => ?_) h
  rcases ih with rfl | ⟨c, cs, hc, hcp, hb⟩
  · exact .inr ⟨x, s, hs, hp, wf.below_refl hs⟩
  · exact .inr ⟨c, cs, hc, hcp, wf.below_step hs hp hb⟩

/-- Two scopes with a scope below both of them are one below the other. -/
theorem below_total (wf : t.WellFormed) (ha : t.Below a x) (hb : t.Below b x) :
    t.Below a b ∨ t.Below b a := by
  refine wf.below_induction (motive := fun x => t.Below b x → t.Below a b ∨ t.Below b a)
    (fun _ _ hb => .inr hb) (fun x s p hs hp hap ih hb => ?_) ha hb
  obtain ⟨s', hs', rfl | ⟨p', hp', hbp⟩⟩ := wf.below_iff.1 hb
  · exact .inl (wf.below_step hs hp hap)
  · rw [hs] at hs'
    cases hs'
    rw [hp] at hp'
    cases hp'
    exact ih hbp

/-- Every scope lies below the root. -/
theorem below_root (wf : t.WellFormed) (h : t.find? x = some s) : t.Below ScopeTree.root x := by
  induction x using Nat.strongRecOn generalizing s with
  | ind x ih =>
    by_cases hx : x = ScopeTree.root
    · subst hx
      exact wf.below_refl h
    · obtain ⟨p, ps, hp, hps, hlt, -⟩ := wf.parent x s h hx
      exact wf.below_step h hp (ih p hlt hps)

end WellFormed

/-! ## Pending tasks -/

/-- One level further down, the search has one step less to go. -/
theorem levels_step {n a c limit : Nat} (h : n - a ≤ limit + 1) (hc : a < c) : n - c ≤ limit := by
  omega

theorem levels_pos {n a : Nat} (ha : a < n) : ¬ n - a ≤ 0 := by omega

/-- **Pending work.** The search for pending tasks finds one exactly if a scope below counts one. -/
theorem WellFormed.hasPendingWithin_iff (wf : t.WellFormed) {limit : Nat}
    (hl : t.nextId - a ≤ limit) : t.hasPendingWithin limit a ↔
      ∃ x s, t.Below a x ∧ t.find? x = some s ∧ 0 < s.pending := by
  induction limit generalizing a with
  | zero =>
    simp only [hasPendingWithin, Bool.false_eq_true, false_iff]
    rintro ⟨x, s, hb, -, -⟩
    obtain ⟨as, ha⟩ := wf.find?_of_above hb
    exact levels_pos (wf.bound a as ha) hl
  | succ limit ih =>
    cases ha : t.find? a with
    | none =>
      simp only [hasPendingWithin, ha, Bool.false_eq_true, false_iff]
      rintro ⟨x, s, hb, -, -⟩
      obtain ⟨as, ha'⟩ := wf.find?_of_above hb
      rw [ha] at ha'
      cases ha'
    | some as =>
      simp only [hasPendingWithin, ha, Bool.or_eq_true, decide_eq_true_eq, List.any_eq_true,
        Table.mem_keys]
      constructor
      · rintro (hpos | ⟨c, hc, hpend⟩)
        · exact ⟨a, as, wf.below_refl ha, ha, hpos⟩
        · have hlt : a < c := wf.child_lt ha hc
          obtain ⟨cs, hcs, hcp⟩ := wf.child a as c ha hc
          obtain ⟨x, s, hb, hs, hpos⟩ := (ih (levels_step hl hlt)).1 hpend
          have hac : t.Below a c := wf.below_step hcs hcp (wf.below_refl ha)
          exact ⟨x, s, wf.below_trans hac hb, hs, hpos⟩
      · rintro ⟨x, s, hb, hs, hpos⟩
        rcases wf.below_top hb with rfl | ⟨c, cs, hc, hcp, hbc⟩
        · rw [ha] at hs
          cases hs
          exact .inl hpos
        · obtain ⟨as', has', hlt, -, hmem⟩ := wf.find?_parent hc hcp
          rw [ha] at has'
          cases has'
          exact .inr ⟨c, hmem, (ih (levels_step hl hlt)).2 ⟨x, s, hbc, hs, hpos⟩⟩

theorem WellFormed.hasPending_iff (wf : t.WellFormed) :
    t.hasPending a ↔ ∃ x s, t.Below a x ∧ t.find? x = some s ∧ 0 < s.pending :=
  wf.hasPendingWithin_iff (Nat.le_refl _)

/-! ## Trees with the same links -/

/-- Two trees have the same scopes, linked in the same way. -/
def SameLinks (t t' : ScopeTree) : Prop :=
  ∀ id, (t'.find? id).map Scope.links = (t.find? id).map Scope.links

theorem SameLinks.symm (h : SameLinks t t') : SameLinks t' t := fun id => (h id).symm

theorem SameLinks.trans {u : ScopeTree} (h : SameLinks t t') (h' : SameLinks t' u) :
    SameLinks t u := fun id => (h' id).trans (h id)

theorem SameLinks.find? (h : SameLinks t t') (hs : t.find? id = some s) :
    ∃ s', t'.find? id = some s' ∧ s'.parent = s.parent ∧ s'.depth = s.depth ∧
      s'.children = s.children := by
  have hid := h id
  rw [hs, Option.map_some] at hid
  obtain ⟨s', hs', hl⟩ := Option.map_eq_some_iff.1 hid
  simp only [Scope.links, Prod.mk.injEq] at hl
  exact ⟨s', hs', hl⟩

theorem sameLinks_modify (t : ScopeTree) (id : ScopeId) {f : Scope → Scope}
    (hf : ∀ s, (f s).links = s.links) : SameLinks t (t.modify id f) := by
  intro x
  rw [find?_modify]
  split
  · cases t.find? x with
    | none => rfl
    | some s => simp [hf]
  · rfl

namespace WellFormed

theorem of_links (wf : t.WellFormed) (h : SameLinks t t') (hn : t.nextId ≤ t'.nextId) :
    t'.WellFormed := by
  refine ⟨?_, fun id s' hs' hr => ?_, fun id s' c hs' hc => ?_, fun id s' hs' => ?_⟩
  · obtain ⟨s, hs, hp, hd⟩ := wf.root
    obtain ⟨s', hs', hp', hd', -⟩ := h.find? hs
    exact ⟨s', hs', hp'.trans hp, hd'.trans hd⟩
  · obtain ⟨s, hs, hp, hd, -⟩ := h.symm.find? hs'
    obtain ⟨p, ps, hsp, hps, hlt, hsd, hmem⟩ := wf.parent id s hs hr
    obtain ⟨ps', hps', -, hpd, hpc⟩ := h.find? hps
    exact ⟨p, ps', hp ▸ hsp, hps', hlt, by omega, by rw [hpc]; exact hmem⟩
  · obtain ⟨s, hs, -, -, hcs⟩ := h.symm.find? hs'
    obtain ⟨cs, hc1, hc2⟩ := wf.child id s c hs (by rw [hcs]; exact hc)
    obtain ⟨cs', hcs', hcp, -⟩ := h.find? hc1
    exact ⟨cs', hcs', hcp.trans hc2⟩
  · obtain ⟨s, hs, -⟩ := h.symm.find? hs'
    exact Nat.lt_of_lt_of_le (wf.bound id s hs) hn

theorem below_of_links (wf : t.WellFormed) (wf' : t'.WellFormed) (h : SameLinks t t')
    (hb : t.Below a x) : t'.Below a x := by
  refine wf.below_induction (motive := fun x => t'.Below a x) (fun s hs => ?_)
    (fun x s p hs hp _ ih => ?_) hb
  · obtain ⟨s', hs', -⟩ := h.find? hs
    exact wf'.below_refl hs'
  · obtain ⟨s', hs', hp', -⟩ := h.find? hs
    exact wf'.below_step hs' (hp'.trans hp) ih

end WellFormed

/-! ## New scopes -/

/-- The tree `t'` is `t` with a new scope below `p`. -/
structure Created (t : ScopeTree) (p : ScopeId) (ps : Scope) (t' : ScopeTree) : Prop where
  next : t'.nextId = t.nextId + 1
  new : t'.find? t.nextId = some (.fresh (some p) (ps.depth + 1))
  parent : t'.find? p = some { ps with children := KeySet.add ps.children t.nextId }
  other : ∀ x, x ≠ t.nextId → x ≠ p → t'.find? x = t.find? x

theorem WellFormed.create (wf : t.WellFormed) (h : t.find? p = some ps) :
    ∃ t', t.create p = .ok (t.nextId, t') ∧ t.Created p ps t' := by
  have hne : p ≠ t.nextId := Nat.ne_of_lt (wf.bound p ps h)
  refine ⟨_, by unfold ScopeTree.create; rw [get_of_find? h]; rfl, rfl, ?_, ?_, fun x hx hxp => ?_⟩
  · show Table.find? (Table.modify _ _ _) t.nextId = _
    rw [Table.find?_modify, Table.find?_insert, if_neg hne, if_pos rfl]
  · have hf : Table.find? t.scopes p = some ps := h
    show Table.find? (Table.modify _ _ _) p = _
    rw [Table.find?_modify, Table.find?_insert, if_pos rfl, if_neg hne, hf]
    rfl
  · show Table.find? (Table.modify _ _ _) x = _
    rw [Table.find?_modify, Table.find?_insert, if_neg (Ne.symm hxp), if_neg hx]
    rfl

namespace Created

variable (hc : t.Created p ps t')

include hc

/-- An old scope keeps its place, and all it holds but for its children. -/
theorem find?_old (wf : t.WellFormed) (h : t.find? p = some ps) (hs : t.find? x = some s) :
    ∃ s', t'.find? x = some s' ∧ s' = { s with children := s'.children } ∧
      ∀ c, s'.children.contains c ↔ s.children.contains c ∨ (x = p ∧ c = t.nextId) := by
  by_cases hx : x = p
  · subst hx
    rw [h] at hs
    cases hs
    refine ⟨_, hc.parent, rfl, fun c => ?_⟩
    rw [KeySet.contains_add]
    grind
  · have hn : x ≠ t.nextId := Nat.ne_of_lt (wf.bound x s hs)
    exact ⟨s, (hc.other x hn hx).trans hs, rfl, by grind⟩

/-- A scope that is not new was there before. -/
theorem find?_of_ne (h : t.find? p = some ps) (hn : x ≠ t.nextId) {s' : Scope}
    (hs : t'.find? x = some s') :
    ∃ s, t.find? x = some s := by
  by_cases hx : x = p
  · exact ⟨ps, hx ▸ h⟩
  · exact ⟨s', (hc.other x hn hx).symm.trans hs⟩

/-- A scope of the new tree is new, or an old one with perhaps one child more. -/
theorem find?_cases (wf : t.WellFormed) (h : t.find? p = some ps) (hs : t'.find? x = some s) :
    (x = t.nextId ∧ s = .fresh (some p) (ps.depth + 1)) ∨
      ∃ s', t.find? x = some s' ∧ s = { s' with children := s.children } := by
  by_cases hx : x = t.nextId
  · subst hx
    rw [hc.new] at hs
    cases hs
    exact .inl ⟨rfl, rfl⟩
  · obtain ⟨s', hs'⟩ := hc.find?_of_ne h hx hs
    obtain ⟨s'', hs'', he, -⟩ := hc.find?_old wf h hs'
    rw [hs] at hs''
    cases hs''
    exact .inr ⟨s', hs', he⟩

theorem wellFormed (wf : t.WellFormed) (h : t.find? p = some ps) : t'.WellFormed := by
  refine ⟨?_, fun id s' hs' hr => ?_, fun id s' c hs' hcc => ?_, fun id s' hs' => ?_⟩
  · obtain ⟨s, hs, hp, hd⟩ := wf.root
    obtain ⟨s', hs', he, -⟩ := hc.find?_old wf h hs
    rw [he] at hs'
    exact ⟨_, hs', hp, hd⟩
  · by_cases hn : id = t.nextId
    · subst hn
      rw [hc.new] at hs'
      cases hs'
      exact ⟨p, _, rfl, hc.parent, wf.bound p ps h, rfl, KeySet.contains_add.2 (.inl rfl)⟩
    · obtain ⟨s, hs⟩ := hc.find?_of_ne h hn hs'
      obtain ⟨s'', hs'', he, -⟩ := hc.find?_old wf h hs
      rw [hs'] at hs''
      cases hs''
      obtain ⟨q, qs, hq, hqs, hlt, hd, hm⟩ := wf.parent id s hs hr
      obtain ⟨qs', hqs', hqe, hqc⟩ := hc.find?_old wf h hqs
      refine ⟨q, qs', by rw [he]; exact hq, hqs', hlt, ?_, (hqc id).2 (.inl hm)⟩
      rw [he, hqe]
      exact hd
  · by_cases hn : id = t.nextId
    · subst hn
      rw [hc.new] at hs'
      cases hs'
      exact absurd hcc (KeySet.not_contains_empty c)
    · obtain ⟨s, hs⟩ := hc.find?_of_ne h hn hs'
      obtain ⟨s'', hs'', -, hch⟩ := hc.find?_old wf h hs
      rw [hs'] at hs''
      cases hs''
      rcases (hch c).1 hcc with hold | ⟨rfl, rfl⟩
      · obtain ⟨cs, hcs, hcp⟩ := wf.child id s c hs hold
        obtain ⟨cs', hcs', he, -⟩ := hc.find?_old wf h hcs
        exact ⟨cs', hcs', by rw [he]; exact hcp⟩
      · exact ⟨_, hc.new, rfl⟩
  · rw [hc.next]
    by_cases hn : id = t.nextId
    · exact hn ▸ Nat.lt_succ_self _
    · obtain ⟨s, hs⟩ := hc.find?_of_ne h hn hs'
      exact Nat.lt_succ_of_lt (wf.bound id s hs)

/-- An old scope lies below the same scopes as before. -/
theorem below_old (wf : t.WellFormed) (h : t.find? p = some ps) (hs : t.find? x = some s) :
    t'.Below a x ↔ t.Below a x := by
  have wf' := hc.wellFormed wf h
  constructor
  · intro hb
    refine wf'.below_induction (motive := fun x => x < t.nextId → t.Below a x) (fun s' hs' hlt => ?_)
      (fun x s' q hs' hq _ ih hlt => ?_) hb (wf.bound x s hs)
    · obtain ⟨s, hs⟩ := hc.find?_of_ne h (Nat.ne_of_lt hlt) hs'
      exact wf.below_refl hs
    · obtain ⟨s, hs⟩ := hc.find?_of_ne h (Nat.ne_of_lt hlt) hs'
      obtain ⟨s'', hs'', he, -⟩ := hc.find?_old wf h hs
      rw [hs'] at hs''
      cases hs''
      rw [he] at hq
      exact wf.below_step hs hq (ih (Nat.lt_trans (wf.parent_lt hs hq) hlt))
  · intro hb
    refine wf.below_induction (motive := fun x => t'.Below a x) (fun s hs => ?_)
      (fun x s q hs hq _ ih => ?_) hb
    · obtain ⟨s', hs', -⟩ := hc.find?_old wf h hs
      exact wf'.below_refl hs'
    · obtain ⟨s', hs', he, -⟩ := hc.find?_old wf h hs
      exact wf'.below_step hs' (by rw [he]; exact hq) ih

end Created

end ScopeTree

end TreeScript
