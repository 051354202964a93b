import TreeScript.Proofs.Scope.Tidy

/-!
# Scopes stay a tree

What a host and the evaluator do with scopes comes down to four operations: a scope is made, a scope
is released, a task of a scope starts, and one ends. `Operation.perform` is one of them, which may
fail and then changes nothing; `after` is a sequence, and `handed` lists the ids it gives out.

* `Evolves`: what can change. New scopes have new ids, and no old id comes back.
* `Operation.evolves`, `evolves_after`: one operation, and all of them.
* `length_chain`: the way to the root is as long as the scope is deep.
* `arena_stays_tree`: what holds after any sequence of operations on the initial tree.
-/

namespace TreeScript

namespace ScopeTree

variable {t u v : ScopeTree} {id x : ScopeId} {s : Scope}

/-! ## Operations -/

/-- An operation on a tree. -/
inductive Operation where
  | create (parent : ScopeId)
  | release (id : ScopeId)
  | beginTask (owner : ScopeId)
  | endTask (owner : ScopeId)
deriving DecidableEq, Repr

/-- Performs an operation, and gives the id that it hands out. One that fails changes nothing. -/
def Operation.perform (t : ScopeTree) : Operation → Option ScopeId × ScopeTree
  | .create parent =>
    match t.create parent with
    | .ok (id, u) => (some id, u)
    | .error _ => (none, t)
  | .release id =>
    match t.release id with
    | .ok (_, u) => (none, u)
    | .error _ => (none, t)
  | .beginTask owner =>
    match t.beginTask owner with
    | .ok u => (none, u)
    | .error _ => (none, t)
  | .endTask owner => (none, t.endTask owner)

/-- The tree after a sequence of operations. -/
def after (t : ScopeTree) (ops : List Operation) : ScopeTree :=
  ops.foldl (fun t op => (op.perform t).2) t

/-- The ids that a sequence of operations hands out. -/
def handed : ScopeTree → List Operation → List ScopeId
  | _, [] => []
  | t, op :: ops => (op.perform t).1.toList ++ handed (op.perform t).2 ops

/-! ## What operations change -/

/-- The tree `u` comes from `t`, and the ids `new` were handed out on the way. -/
structure Evolves (t : ScopeTree) (new : List ScopeId) (u : ScopeTree) : Prop where
  tidy : u.Tidy
  next : t.nextId ≤ u.nextId
  fresh : ∀ id ∈ new, t.nextId ≤ id ∧ id < u.nextId
  nodup : new.Nodup
  origin : ∀ id s', u.find? id = some s' → id ∈ new ∨ ∃ s, t.find? id = some s

namespace Evolves

/-- No scope is made. -/
theorem of_thins (htidy : u.Tidy) (h : t.Thins u) : Evolves t [] u :=
  ⟨htidy, Nat.le_of_eq h.next.symm, fun _ h => (List.not_mem_nil h).elim, .nil,
    fun id s' hs' => .inr ((h.kept id s' hs').imp fun _ => And.left)⟩

theorem refl (h : t.Tidy) : Evolves t [] t := of_thins h ⟨rfl, fun _ s' hs' => ⟨s', hs', rfl⟩⟩

theorem append {l m : List ScopeId} (h : Evolves t l u) (h' : Evolves u m v) :
    Evolves t (l ++ m) v := by
  refine ⟨h'.tidy, Nat.le_trans h.next h'.next, fun id hid => ?_, ?_, fun id s' hs' => ?_⟩
  · rcases List.mem_append.1 hid with hid | hid
    · exact ⟨(h.fresh id hid).1, Nat.lt_of_lt_of_le (h.fresh id hid).2 h'.next⟩
    · exact ⟨Nat.le_trans h.next (h'.fresh id hid).1, (h'.fresh id hid).2⟩
  · refine List.nodup_append.2 ⟨h.nodup, h'.nodup, fun a ha b hb hab => ?_⟩
    exact Nat.not_lt.2 (h'.fresh b hb).1 (hab ▸ (h.fresh a ha).2)
  · rcases h'.origin id s' hs' with hid | ⟨s, hs⟩
    · exact .inl (List.mem_append_right _ hid)
    · exact (h.origin id s hs).imp_left (List.mem_append_left _)

/-- An id that was given out and has no scope has none later. -/
theorem find?_eq_none {l : List ScopeId} (h : Evolves t l u) (hlt : id < t.nextId)
    (hnone : t.find? id = none) : u.find? id = none := by
  cases hu : u.find? id with
  | none => rfl
  | some s' =>
    rcases h.origin id s' hu with hid | ⟨s, hs⟩
    · exact absurd hlt (Nat.not_lt.2 (h.fresh id hid).1)
    · rw [hnone] at hs
      cases hs

end Evolves

theorem Tidy.evolves_create {parent : ScopeId} (h : t.Tidy) (hc : t.create parent = .ok (id, u)) :
    Evolves t [id] u := by
  obtain ⟨rfl, ps, hp, hcreated⟩ := h.wellFormed.created_of_create hc
  refine ⟨h.create hc, by rw [hcreated.next]; exact Nat.le_succ _, fun x hx => ?_,
    List.pairwise_singleton _ _, fun x s' hs' => ?_⟩
  · rw [List.mem_singleton.1 hx, hcreated.next]
    exact ⟨Nat.le_refl _, Nat.lt_succ_self _⟩
  · by_cases hx : x = t.nextId
    · exact .inl (List.mem_singleton.2 hx)
    · exact .inr (hcreated.find?_of_ne hp hx hs')

/-- **One operation.** -/
theorem Operation.evolves (op : Operation) (h : t.Tidy) :
    Evolves t (op.perform t).1.toList (op.perform t).2 := by
  cases op with
  | create parent =>
    simp only [perform]
    split
    · rename_i hc
      exact h.evolves_create hc
    · exact .refl h
  | release id =>
    simp only [perform]
    split
    · rename_i hr
      exact .of_thins (h.release hr) (h.toRooted.release hr).2
    · exact .refl h
  | beginTask owner =>
    simp only [perform]
    split
    · rename_i hb
      exact .of_thins (h.beginTask hb) (h.toRooted.beginTask hb).2
    · exact .refl h
  | endTask owner => exact .of_thins (h.endTask owner) (h.toRooted.endTask owner).2

/-- **Any sequence of operations.** -/
theorem Tidy.evolves_after (h : t.Tidy) (ops : List Operation) :
    Evolves t (t.handed ops) (t.after ops) := by
  induction ops generalizing t with
  | nil => exact .refl h
  | cons op ops ih =>
    have hop := op.evolves h
    exact hop.append (ih hop.tidy)

/-! ## Ways to the root -/

theorem WellFormed.chain_eq (wf : t.WellFormed) (h : t.find? x = some s) :
    ∃ l, t.chain x = l ++ [ScopeTree.root] ∧ l.length = s.depth := by
  -- Along the parents, which are older.
  induction x using Nat.strongRecOn generalizing s with
  | ind x ih =>
    rw [wf.chain_of_find? h]
    by_cases hx : x = ScopeTree.root
    · subst hx
      obtain ⟨rs, hrs, hp, hd⟩ := wf.root
      rw [h] at hrs
      cases hrs
      rw [hp, hd]
      exact ⟨[], rfl, rfl⟩
    · obtain ⟨p, ps, hp, hps, hlt, hd, -⟩ := wf.parent x s h hx
      obtain ⟨l, hl, hlength⟩ := ih p hlt hps
      rw [hp, hd]
      exact ⟨x :: l, congrArg (x :: ·) hl, congrArg (· + 1) hlength⟩

theorem WellFormed.length_chain (wf : t.WellFormed) (h : t.find? x = some s) :
    (t.chain x).length = s.depth + 1 := by
  obtain ⟨l, hl, hlength⟩ := wf.chain_eq h
  rw [hl, List.length_append, hlength]
  rfl

theorem WellFormed.getLast?_chain (wf : t.WellFormed) (h : t.find? x = some s) :
    (t.chain x).getLast? = some ScopeTree.root := by
  obtain ⟨l, hl, -⟩ := wf.chain_eq h
  rw [hl, List.getLast?_concat]

theorem WellFormed.head?_chain (wf : t.WellFormed) (h : t.find? x = some s) :
    (t.chain x).head? = some x := by
  rw [wf.chain_of_find? h]
  rfl

/-! ## The tree after any operations -/

/-- **Scopes stay a tree.** Whatever operations are performed on the initial tree, and however they
go on with `more` of them:

* parents and children agree, and depths count up from the root;
* no id is handed out twice, all of them are below `nextId`, and only they and the root are
  registered;
* a scope that is gone stays gone, and later ids are new;
* the way from a scope to the root is one longer than the scope's depth;
* the search for pending tasks below a scope and the removal of a scope come to their ends, with any
  bound that is large enough for the tree, and the removal takes out just the scopes below. -/
theorem arena_stays_tree (ops more : List Operation) :
    (initial.after ops).WellFormed ∧
    (root :: initial.handed ops).Nodup ∧
    (∀ id ∈ root :: initial.handed ops, id < (initial.after ops).nextId) ∧
    (∀ id, (initial.after ops).contains id → id ∈ root :: initial.handed ops) ∧
    (∀ id ∈ root :: initial.handed ops, (initial.after ops).contains id = false →
      (initial.after (ops ++ more)).contains id = false) ∧
    (∀ id ∈ (initial.after ops).handed more, id ∉ root :: initial.handed ops) ∧
    ∀ id s, (initial.after ops).find? id = some s →
      ((initial.after ops).chain id).head? = some id ∧
      ((initial.after ops).chain id).getLast? = some root ∧
      ((initial.after ops).chain id).length = s.depth + 1 ∧
      (∀ limit, (initial.after ops).nextId - id ≤ limit →
        ((initial.after ops).hasPendingWithin limit id ↔ ∃ x xs,
          (initial.after ops).Below id x ∧ (initial.after ops).find? x = some xs ∧
            0 < xs.pending)) ∧
      ∃ u, (∀ limit, (initial.after ops).nextId - id ≤ limit →
          removeWithin limit id (initial.after ops) = .ok u) ∧
        ∀ x, u.contains x ↔
          (initial.after ops).contains x ∧ ¬ (initial.after ops).Below id x := by
  have hev := tidy_initial.evolves_after ops
  have hmore := hev.tidy.evolves_after more
  have wf := hev.tidy.wellFormed
  have happend : initial.after (ops ++ more) = (initial.after ops).after more :=
    List.foldl_append
  have hfresh : ∀ id ∈ root :: initial.handed ops, id < (initial.after ops).nextId := by
    intro id hid
    rcases List.mem_cons.1 hid with rfl | hid
    · exact Nat.lt_of_lt_of_le Nat.one_pos hev.next
    · exact (hev.fresh id hid).2
  refine ⟨wf, List.nodup_cons.2 ⟨fun hroot => ?_, hev.nodup⟩, hfresh, fun id hid => ?_,
    fun id hid hgone => ?_, fun id hid hold => ?_, fun id s hs => ?_⟩
  · exact Nat.not_lt.2 (hev.fresh root hroot).1 Nat.one_pos
  · obtain ⟨s, hs⟩ := contains_iff.1 hid
    rcases hev.origin id s hs with hid | ⟨s₀, hs₀⟩
    · exact List.mem_cons_of_mem _ hid
    · rw [find?_initial] at hs₀
      split at hs₀
      · rename_i hroot
        exact hroot ▸ List.mem_cons_self
      · cases hs₀
  · rw [happend]
    exact Table.contains_eq_false.2
      (hmore.find?_eq_none (hfresh id hid) (Table.contains_eq_false.1 hgone))
  · exact Nat.not_lt.2 (hmore.fresh id hid).1 (hfresh id hold)
  · obtain ⟨u, hu, hleft⟩ := wf.find?_remove hs
    refine ⟨wf.head?_chain hs, wf.getLast?_chain hs, wf.length_chain hs,
      fun limit hl => wf.hasPendingWithin_iff hl, u, fun limit hl => removeWithin_mono hl hu,
      fun x => ?_⟩
    rw [contains_iff, contains_iff]
    exact hleft x

end ScopeTree

end TreeScript
