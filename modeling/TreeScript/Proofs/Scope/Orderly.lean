import TreeScript.Eval.Flow
import TreeScript.Proofs.Scope.Markers
import TreeScript.Proofs.Scope.Removal
import TreeScript.Proofs.Tree.Descendants

/-!
# Scopes while a program runs

What holds of the scopes between two steps of a program without tasks, and what jumps add to it.

* `Orderly program shape t`: the scopes `t` are linked like those of `shape`, no task is pending in
  them, and their functions are declared by `program`.
* `Quiet program t`: no marker of a `return` of the program is set.
* `After program x l flow t`: a visit in the scope `x` has ended in `flow`, and could reach the
  nodes `l` without a call. If it jumped, the marker of one of them is set in `x`. Markers of a
  `return` are set in no other scope, and only if the visit returned.
* `Created.orderly`, `Orderly.release`: a scope that is made and released again leaves the links as
  they were, and `After.merged` moves the markers to the parent.
* `After.skipsRest`: then the markers of a statement tell whether it jumped.
-/

namespace TreeScript

/-- The function is made from a declaration of the program. -/
def Node.Declares (program : Node) (f : ScriptFunction) : Prop :=
  ∃ n ∈ program.descendants, ∃ id implementation depth,
    ScriptFunction.ofNode id n implementation depth = .ok f

/-- A scope without tasks whose functions are declared by the program. -/
structure Scope.Proper (program : Node) (s : Scope) : Prop where
  idle : s.pending = 0
  functions : ∀ name c, s.functions.find? name = some c → ∃ f, c = .script f ∧ program.Declares f
  members : ∀ owner i name f, s.implementations.find? owner = some i →
    i.functions.find? name = some f → program.Declares f

namespace Scope.Proper

variable {program : Node} {s child : Scope} {l : List ScopeId} {left : ScopeId → Scope}

theorem fresh (parent : Option ScopeId) (depth : Nat) : (Scope.fresh parent depth).Proper program where
  idle := rfl
  functions name c h := by
    have hnone : (Scope.fresh parent depth).functions.find? name = none := Table.find?_empty name
    rw [hnone] at h
    cases h
  members owner i _ _ h := by
    have hnone : (Scope.fresh parent depth).implementations.find? owner = none :=
      Table.find?_empty owner
    rw [hnone] at h
    cases h

theorem absorb (hs : s.Proper program) (hc : child.Proper program) (id : ScopeId) :
    (s.absorb id child).Proper program := by
  refine ⟨hs.idle, fun name c h => ?_, fun owner i name f h hf => ?_⟩
  · have h : (s.functions.merge (child.functions.filter _)).find? name = some c := h
    rw [Table.find?_merge, Table.find?_filter, Option.or_eq_some_iff] at h
    rcases h with h | ⟨-, h⟩
    · exact hs.functions name c h
    · exact hc.functions name c (Option.filter_eq_some_iff.1 h).1
  · have h : (s.implementations.merge (child.implementations.filter _)).find? owner = some i := h
    rw [Table.find?_merge, Table.find?_filter, Option.or_eq_some_iff] at h
    rcases h with h | ⟨-, h⟩
    · exact hs.members owner i name f h hf
    · exact hc.members owner i name f (Option.filter_eq_some_iff.1 h).1 hf

theorem absorbAll (hs : s.Proper program) (hl : ∀ c ∈ l, (left c).Proper program) :
    (s.absorbAll l left).Proper program := by
  induction l generalizing s with
  | nil => exact hs
  | cons c l ih =>
    rw [Scope.absorbAll_cons]
    exact ih (hs.absorb (hl c List.mem_cons_self) c) fun d hd => hl d (List.mem_cons_of_mem _ hd)

end Scope.Proper

namespace ScopeTree

variable {program : Node} {shape t t' u v : ScopeTree} {x y inner : ScopeId} {s ps : Scope}
  {l l' : List Node} {flow : Flow}

/-- The scopes are linked like those of `shape`, no task is pending, and all functions are declared
by the program. -/
structure Orderly (program : Node) (shape t : ScopeTree) : Prop where
  wf : t.WellFormed
  links : SameLinks shape t
  proper : ∀ x s, t.find? x = some s → s.Proper program

/-- No marker of a `return` of the program is set. -/
def Quiet (program : Node) (t : ScopeTree) : Prop :=
  ∀ x s n, t.find? x = some s → n ∈ program.descendants → n.jump? = some .toCaller →
    ¬ s.executed.contains n.id

/-- What a visit in the scope `x` that ended in `flow` leaves, if it could reach the nodes `l`. -/
structure After (program : Node) (x : ScopeId) (l : List Node) (flow : Flow) (t : ScopeTree) :
    Prop where
  jumped : flow.isJump → ∃ n ∈ l, n.jump?.isSome ∧
    ∃ s, t.find? x = some s ∧ s.executed.contains n.id
  returned : ∀ y s n, t.find? y = some s → n ∈ program.descendants →
    n.jump? = some .toCaller → s.executed.contains n.id →
    y = x ∧ n ∈ l ∧ ∃ value, flow = .returned value

/-! ## Jumps -/

theorem Quiet.after (h : Quiet program t) (hf : flow.isJump = false) :
    After program x l flow t where
  jumped hj := by
    rw [hf] at hj
    cases hj
  returned y s n hs hn hj hc := absurd hc (h y s n hs hn hj)

namespace After

theorem mono (h : After program x l flow t) (hl : l ⊆ l') : After program x l' flow t where
  jumped hj := by
    obtain ⟨n, hn, hrest⟩ := h.jumped hj
    exact ⟨n, hl hn, hrest⟩
  returned y s n hs hn hj hc := by
    obtain ⟨hy, hn, hv⟩ := h.returned y s n hs hn hj hc
    exact ⟨hy, hl hn, hv⟩

/-- Only a visit that returned leaves the marker of a `return`. -/
theorem quiet (h : After program x l flow t) (hf : ∀ value, flow ≠ .returned value) :
    Quiet program t := fun y s n hs hn hj hc => by
  obtain ⟨-, -, value, hv⟩ := h.returned y s n hs hn hj hc
  exact hf value hv

/-- A visit that can reach no jump leaves no marker of a `return`. -/
theorem quiet_of_no_jumps (h : After program x l flow t) (hl : ∀ n ∈ l, n.jump? = none) :
    Quiet program t := fun y s n hs hn hj hc => by
  obtain ⟨-, hmem, -⟩ := h.returned y s n hs hn hj hc
  rw [hl n hmem] at hj
  cases hj

/-- **Markers and jumps.** The rest is skipped exactly after a statement that jumped. -/
theorem skipsRest {n : Node} (h : After program x n.exposed flow t) (hs : t.find? x = some s)
    (hn : n ∈ program.descendants) : t.skipsRest x n flow.isJump = .ok flow.isJump := by
  unfold ScopeTree.skipsRest
  rw [get_of_find? hs]
  refine congrArg Except.ok ?_
  cases hf : flow.isJump with
  | true =>
    obtain ⟨m, hm, hj, s', hs', hc⟩ := h.jumped hf
    rw [hs] at hs'
    cases hs'
    rw [List.any_eq_true]
    refine ⟨m, n.exposed_subset_descendants hm, ?_⟩
    cases hk : m.jump? with
    | none =>
      rw [hk] at hj
      cases hj
    | some k => cases k <;> simpa using hc
  | false =>
    rw [List.any_eq_false]
    intro m hm
    cases hk : m.jump? with
    | none => simp
    | some k =>
      cases k with
      | toCaller =>
        intro hc
        obtain ⟨-, -, value, hv⟩ := h.returned x s m hs (Node.descendants_trans hn hm) hk hc
        rw [hv] at hf
        cases hf
      | outOfLoop | toNextRound => simp

end After

/-! ## Changes of single scopes -/

/-- A change that leaves links and markers alone and keeps scopes proper. -/
structure Harmless (program : Node) (f : Scope → Scope) : Prop where
  links : ∀ s, (f s).links = s.links
  executed : ∀ s, (f s).executed = s.executed
  proper : ∀ s, s.Proper program → (f s).Proper program

theorem Orderly.modify (h : Orderly program shape t) {f : Scope → Scope}
    (hf : Harmless program f) (x : ScopeId) : Orderly program shape (t.modify x f) := by
  have hlinks := sameLinks_modify t x hf.links
  refine ⟨h.wf.of_links hlinks (Nat.le_refl _), h.links.trans hlinks, fun y s hs => ?_⟩
  obtain ⟨s', hs', rfl | rfl⟩ := find?_of_modify hs
  · exact hf.proper s' (h.proper y s' hs')
  · exact h.proper y s hs'

theorem Quiet.modify (h : Quiet program t) {f : Scope → Scope} (hf : Harmless program f)
    (x : ScopeId) : Quiet program (t.modify x f) := by
  intro y s n hs hn hj
  obtain ⟨s', hs', rfl | rfl⟩ := find?_of_modify hs
  · rw [hf.executed]
    exact h y s' n hs' hn hj
  · exact h y s n hs' hn hj

theorem Remarked.find?_before (h : Remarked x t t') (hs : t'.find? y = some s) :
    ∃ s', t.find? y = some s' ∧ s = { s' with executed := s.executed } := by
  by_cases hy : y = x
  · subst hy
    cases hs' : t.find? y with
    | none =>
      rw [h.none hs'] at hs
      cases hs
    | some s' =>
      obtain ⟨s'', hs'', he⟩ := h.self s' hs'
      rw [hs] at hs''
      cases hs''
      exact ⟨s', rfl, he⟩
  · rw [h.other y hy] at hs
    exact ⟨s, hs, rfl⟩

theorem Orderly.remarked (h : Orderly program shape t) (hr : Remarked x t t') :
    Orderly program shape t' := by
  refine ⟨hr.wellFormed h.wf, h.links.trans hr.sameLinks, fun y s hs => ?_⟩
  obtain ⟨s', hs', he⟩ := hr.find?_before hs
  rw [he]
  have hp := h.proper y s' hs'
  exact ⟨hp.idle, hp.functions, hp.members⟩

/-! ## Scopes that are made and released -/

theorem Orderly.initial : Orderly program initial initial := by
  refine ⟨wellFormed_initial, fun _ => rfl, fun x s h => ?_⟩
  rw [find?_initial] at h
  split at h
  · cases h
    exact .fresh none 0
  · cases h

theorem Quiet.initial : Quiet program initial := by
  intro x s n h _ _
  rw [find?_initial] at h
  split at h
  · cases h
    exact KeySet.not_contains_empty n.id
  · cases h

namespace Created

variable {p : ScopeId} (hc : t.Created p ps t')

include hc

theorem orderly (h : Orderly program shape t) (hp : t.find? p = some ps) :
    Orderly program t' t' := by
  refine ⟨hc.wellFormed h.wf hp, fun _ => rfl, fun x s hs => ?_⟩
  rcases hc.find?_cases h.wf hp hs with ⟨-, rfl⟩ | ⟨s', hs', he⟩
  · exact .fresh _ _
  · have hproper := h.proper x s' hs'
    rw [he]
    exact ⟨hproper.idle, hproper.functions, hproper.members⟩

theorem quiet (wf : t.WellFormed) (h : Quiet program t) (hp : t.find? p = some ps) :
    Quiet program t' := by
  intro x s n hs hn hj
  rcases hc.find?_cases wf hp hs with ⟨-, rfl⟩ | ⟨s', hs', he⟩
  · exact KeySet.not_contains_empty n.id
  · rw [he]
    exact h x s' n hs' hn hj

/-- Nothing lies below a new scope but itself, as long as the links stay. -/
theorem below_new (wf : t.WellFormed) (hp : t.find? p = some ps) (wfu : u.WellFormed)
    (hl : SameLinks t' u) (hb : u.Below t.nextId x) : x = t.nextId := by
  rcases wfu.below_top hb with hx | ⟨c, cs, hcs, hcp, -⟩
  · exact hx
  · obtain ⟨cs', hcs', hcp', -⟩ := hl.symm.find? hcs
    obtain ⟨ns, hns, -, -, hchild⟩ :=
      (hc.wellFormed wf hp).find?_parent hcs' (hcp'.trans hcp)
    rw [hc.new] at hns
    cases hns
    exact absurd hchild (KeySet.not_contains_empty c)

end Created

/-- The scope `inner` is gone, and its parent `p` has taken over its markers. -/
structure Merged (inner p : ScopeId) (t t' : ScopeTree) : Prop where
  ne : p ≠ inner
  gone : t'.find? inner = none
  parent : ∃ s is s', t.find? p = some s ∧ t.find? inner = some is ∧ t'.find? p = some s' ∧
    ∀ n, s'.executed.contains n ↔ s.executed.contains n ∨ is.executed.contains n
  other : ∀ x, x ≠ p → x ≠ inner → t'.find? x = t.find? x

/-- The markers of a visit in a scope are those of a visit in the parent once they are merged. -/
theorem After.merged {p : ScopeId} (h : After program inner l flow t)
    (hm : Merged inner p t t') : After program p l flow t' := by
  obtain ⟨qs, is, s', hqs, his, hs', hexecuted⟩ := hm.parent
  refine ⟨fun hj => ?_, fun y s n hs hn hj hc => ?_⟩
  · obtain ⟨n, hn, hjump, s, hs, hc⟩ := h.jumped hj
    rw [his] at hs
    cases hs
    exact ⟨n, hn, hjump, s', hs', (hexecuted n.id).2 (.inr hc)⟩
  · by_cases hyp : y = p
    · subst hyp
      rw [hs'] at hs
      cases hs
      rcases (hexecuted n.id).1 hc with hc | hc
      · exact absurd (h.returned y qs n hqs hn hj hc).1 hm.ne
      · exact ⟨rfl, (h.returned inner is n his hn hj hc).2⟩
    · have hyi : y ≠ inner := by
        rintro rfl
        rw [hm.gone] at hs
        cases hs
      rw [hm.other y hyp hyi] at hs
      exact absurd (h.returned y s n hs hn hj hc).1 hyi

theorem Orderly.residue (h : Orderly program shape t) (x : ScopeId) :
    (t.residue x).Proper program := by
  have hwithin : ∀ limit y, (t.residueWithin limit y).Proper program := by
    intro limit
    induction limit with
    | zero => exact fun _ => .fresh none 0
    | succ limit ih =>
      intro y
      unfold residueWithin
      cases hy : t.find? y with
      | none => exact .fresh none 0
      | some s => exact (h.proper y s hy).absorbAll fun c _ => ih c
  exact hwithin _ x

section Release

variable {p : ScopeId} (h : Orderly program shape t) (hp : t.find? p = some ps)
  (hc : t.Created p ps t') (hu : Orderly program t' u)

include h hp hc hu

/-- Tearing down a scope that was made takes nothing else away, and the parent takes over its
markers. -/
theorem Orderly.merged {qs is : Scope} (hqs : u.find? p = some qs)
    (his : u.find? t.nextId = some is) (hpr : u.Pruned p qs [t.nextId] v) :
    Merged t.nextId p u v := by
  have hbelow : ∀ x, u.Below t.nextId x → x = t.nextId := fun x =>
    hc.below_new h.wf hp hu.wf hu.links
  refine ⟨Nat.ne_of_lt (h.wf.bound p ps hp), ?_, ?_, fun x hxp hxi => ?_⟩
  · exact hpr.gone t.nextId (List.mem_singleton.2 rfl) _ (hu.wf.below_refl his)
  · refine ⟨qs, is, _, hqs, his, hpr.parent, fun n => ?_⟩
    show (KeySet.union qs.executed (u.residue t.nextId).executed).contains n ↔ _
    rw [KeySet.contains_union, hu.wf.contains_executed_residue his]
    -- Only the scope itself lies below it.
    constructor
    · rintro (hn | ⟨x, xs, hb, hxs, hn⟩)
      · exact .inl hn
      · rw [hbelow x hb, his] at hxs
        cases hxs
        exact .inr hn
    · rintro (hn | hn)
      · exact .inl hn
      · exact .inr ⟨_, is, hu.wf.below_refl his, his, hn⟩
  · refine hpr.kept x hxp fun c hcl hb => ?_
    rw [List.mem_singleton.1 hcl] at hb
    exact hxi (hbelow x hb)

/-- The links are what they were before the scope was made. -/
theorem Orderly.links_restored {qs : Scope} (hqs : u.find? p = some qs)
    (hpr : u.Pruned p qs [t.nextId] v) (hm : Merged t.nextId p u v) : SameLinks t v := by
  obtain ⟨qs', hqs', hqp, hqd, hqc⟩ := hu.links.find? hc.parent
  rw [hqs] at hqs'
  cases hqs'
  intro x
  by_cases hxi : x = t.nextId
  · have hnone : t.find? t.nextId = none := by
      cases hn : t.find? t.nextId with
      | none => rfl
      | some s => exact absurd (h.wf.bound _ s hn) (Nat.lt_irrefl _)
    rw [hxi, hm.gone, hnone]
  · by_cases hxp : x = p
    · subst hxp
      have hchildren : qs.children.erase t.nextId = ps.children := by
        refine KeySet.ext_contains fun c => ?_
        rw [Table.contains_erase, hqc, KeySet.contains_add]
        have hold : ps.children.contains c → t.nextId ≠ c := fun hcc he => by
          obtain ⟨cs, hcs, -⟩ := h.wf.child x ps c hp hcc
          exact Nat.lt_irrefl _ (he ▸ h.wf.bound c cs hcs)
        grind
      rw [hpr.parent, hp]
      show some (qs.parent, qs.depth, qs.children.erase t.nextId) = some ps.links
      rw [hqp, hqd, hchildren]
      rfl
    · rw [hm.other x hxp hxi, hu.links x, hc.other x hxi hxp]

/-- **Release.** A scope that was made and is released again leaves the scopes orderly. -/
theorem Orderly.release : ∃ v, u.release t.nextId = .ok (.removed, v) ∧
    Orderly program shape v ∧ Merged t.nextId p u v := by
  obtain ⟨is, his, hip, -⟩ := hu.links.find? hc.new
  obtain ⟨qs, hqs, -⟩ := hu.links.find? hc.parent
  have hidle : ¬ u.hasPending t.nextId := by
    rw [hu.wf.hasPending_iff]
    rintro ⟨x, s, -, hs, hpending⟩
    rw [(hu.proper x s hs).idle] at hpending
    exact Nat.lt_irrefl 0 hpending
  obtain ⟨v, hv, hpr⟩ := hu.wf.release_of_idle his hip hqs hidle
  have hm := h.merged hp hc hu hqs his hpr
  have hlinks := h.links_restored hp hc hu hqs hpr hm
  refine ⟨v, hv, ⟨?_, h.links.trans hlinks, fun x s hs => ?_⟩, hm⟩
  · exact hpr.wellFormed hu.wf hqs (areChildren_singleton his hip)
  · by_cases hxp : x = p
    · subst hxp
      rw [hpr.parent] at hs
      cases hs
      exact (hu.proper x qs hqs).absorb (hu.residue _) _
    · have hxi : x ≠ t.nextId := by
        rintro rfl
        rw [hm.gone] at hs
        cases hs
      rw [hm.other x hxp hxi] at hs
      exact hu.proper x s hs

end Release

end ScopeTree

end TreeScript
