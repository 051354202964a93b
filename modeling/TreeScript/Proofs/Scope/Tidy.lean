import TreeScript.Proofs.Scope.Places

/-!
# Released scopes wait for tasks

A scope that is released while tasks are pending in it or below it stays, marked, until the last of
them ends. In a `Tidy` tree no marked scope is left over: each of them still waits for a task. Every
operation on trees keeps them tidy. The end of a task only looks at the scopes above its owner; no
other marked scope waited for it.

A scope `Stands` if neither it nor an older one is marked. It stays for as long as no older scope is
released, whatever tasks end.
-/

namespace TreeScript

namespace ScopeTree

variable {t u : ScopeTree} {id x : ScopeId}

/-! ## What an operation did -/

/-- A scope that was made is below one that is there. -/
theorem WellFormed.created_of_create {parent : ScopeId} (wf : t.WellFormed)
    (h : t.create parent = .ok (id, u)) :
    id = t.nextId ∧ ∃ ps, t.find? parent = some ps ∧ t.Created parent ps u := by
  cases hp : t.find? parent with
  | none =>
    unfold ScopeTree.create ScopeTree.get at h
    rw [hp] at h
    cases h
  | some ps =>
    obtain ⟨v, hv, hcreated⟩ := wf.create hp
    rw [hv] at h
    cases h
    exact ⟨rfl, ps, rfl, hcreated⟩

/-- A scope that was released is marked if tasks are pending below it, and removed otherwise. -/
theorem WellFormed.marked_or_trimmed {r : Release} (wf : t.WellFormed)
    (h : t.release id = .ok (r, u)) : ∃ s p, t.find? id = some s ∧ s.parent = some p ∧
      ((t.hasPending id ∧ u = t.mark id s) ∨
        (¬t.hasPending id ∧ u.WellFormed ∧ Trimmed [id] t u)) := by
  have hid : id ≠ ScopeTree.root := by
    rintro rfl
    unfold ScopeTree.release at h
    rw [if_pos rfl] at h
    cases h
  cases hs : t.find? id with
  | none =>
    unfold ScopeTree.release at h
    rw [if_neg hid, hs] at h
    cases h
  | some s =>
    obtain ⟨p, ps, hp, hps, -⟩ := wf.parent id s hs hid
    refine ⟨s, p, rfl, hp, ?_⟩
    by_cases hpend : t.hasPending id
    · rw [release_of_pending hs hid hpend] at h
      cases h
      exact .inl ⟨hpend, rfl⟩
    · obtain ⟨v, hv, hpruned⟩ := wf.release_of_idle hs hp hps hpend
      rw [hv] at h
      cases h
      have wf' := hpruned.wellFormed wf hps (areChildren_singleton hs hp)
      exact .inr ⟨hpend, wf', hpruned.trimmed hps⟩

/-! ## Roots -/

theorem SamePlaces.sameLinks (h : t.SamePlaces u) : SameLinks t u := fun id => by
  have hlinks : Scope.links = (fun p : Scope.Place => (p.parent, p.depth, p.children)) ∘ Scope.place :=
    rfl
  rw [hlinks, ← Option.map_map, ← Option.map_map, h.places id]

theorem SamePlaces.find? (h : t.SamePlaces u) {s : Scope} (hs : t.find? x = some s) :
    ∃ s', u.find? x = some s' ∧ s'.place = s.place := by
  have hx := h.places x
  rw [hs] at hx
  exact Option.map_eq_some_iff.1 hx

theorem SamePlaces.symm (h : t.SamePlaces u) : u.SamePlaces t :=
  ⟨h.next.symm, fun id => (h.places id).symm⟩

/-- The scopes of `u` are those of `t` that are left, where they were. -/
structure Thins (t u : ScopeTree) : Prop where
  next : u.nextId = t.nextId
  kept : ∀ x s', u.find? x = some s' → ∃ s, t.find? x = some s ∧ s'.parent = s.parent

theorem SameLinks.thins (h : SameLinks t u) (hnext : u.nextId = t.nextId) : t.Thins u := by
  refine ⟨hnext, fun x s' hs' => ?_⟩
  obtain ⟨s, hs, hparent, -⟩ := h.symm.find? hs'
  exact ⟨s, hs, hparent.symm⟩

/-- The root was not released. -/
structure Rooted (t : ScopeTree) : Prop where
  wellFormed : t.WellFormed
  root : ∀ s, t.find? ScopeTree.root = some s → s.marked = false

namespace Rooted

theorem initial : ScopeTree.initial.Rooted := by
  refine ⟨wellFormed_initial, fun s hs => ?_⟩
  rw [find?_initial, if_pos rfl] at hs
  cases hs
  rfl

theorem same (h : t.Rooted) (hsame : t.SamePlaces u) : u.Rooted ∧ t.Thins u := by
  have hlinks := hsame.sameLinks
  refine ⟨⟨h.wellFormed.of_links hlinks (Nat.le_of_eq hsame.next.symm), fun s' hs' => ?_⟩,
    hlinks.thins hsame.next⟩
  obtain ⟨s, hs, hplace⟩ := hsame.symm.find? hs'
  exact (congrArg Scope.Place.marked hplace).symm.trans (h.root s hs)

theorem create {parent : ScopeId} (h : t.Rooted) (hc : t.create parent = .ok (id, u)) : u.Rooted := by
  obtain ⟨-, ps, hp, hcreated⟩ := h.wellFormed.created_of_create hc
  refine ⟨hcreated.wellFormed h.wellFormed hp, fun s' hs' => ?_⟩
  rcases hcreated.find?_cases h.wellFormed hp hs' with ⟨-, rfl⟩ | ⟨s, hs, heq⟩
  · rfl
  · rw [heq]
    exact h.root s hs

theorem modify {f : Scope → Scope} (h : t.Rooted) (hlinks : ∀ s, (f s).links = s.links)
    (hmarked : ∀ s, (f s).marked = s.marked) : (t.modify id f).Rooted ∧ t.Thins (t.modify id f) := by
  have hl := t.sameLinks_modify id hlinks
  refine ⟨⟨h.wellFormed.of_links hl (Nat.le_refl _), fun s' hs' => ?_⟩, hl.thins rfl⟩
  obtain ⟨s, hs, rfl | rfl⟩ := find?_of_modify hs'
  · exact (hmarked s).trans (h.root s hs)
  · exact h.root s' hs

theorem trimmed {l : List ScopeId} (h : t.Rooted) (wf' : u.WellFormed) (ht : Trimmed l t u) :
    u.Rooted ∧ t.Thins u := by
  refine ⟨⟨wf', fun s' hs' => ?_⟩, ht.next, fun x s' hs' => ?_⟩
  · obtain ⟨s, hs, -, -, -, hmarked⟩ := ht.find?_before hs'
    exact hmarked.trans (h.root s hs)
  · obtain ⟨s, hs, -, hparent, -⟩ := ht.find?_before hs'
    exact ⟨s, hs, hparent⟩

theorem release {r : Release} (h : t.Rooted) (hr : t.release id = .ok (r, u)) :
    u.Rooted ∧ t.Thins u := by
  have wf := h.wellFormed
  obtain ⟨s, p, hs, hp, ⟨-, rfl⟩ | ⟨-, wf', ht⟩⟩ := wf.marked_or_trimmed hr
  · refine ⟨⟨wf.mark id s, fun s' hs' => Bool.eq_false_iff.2 fun hm => ?_⟩,
      (sameLinks_mark t id s).thins (nextId_mark t id s)⟩
    obtain ⟨xs, hxs, -, hmarked⟩ := find?_of_mark hs hp (Nat.ne_of_lt (wf.parent_lt hs hp)) hs'
    rcases hmarked.1 hm with heq | hm
    · exact wf.ne_root hs hp heq.symm
    · exact Bool.false_ne_true ((h.root xs hxs).symm.trans hm)
  · exact h.trimmed wf' ht

theorem beginTask (h : t.Rooted) (hb : t.beginTask id = .ok u) : u.Rooted ∧ t.Thins u := by
  obtain ⟨c, -, hb⟩ := find?_of_get_bind hb
  cases hb
  exact h.modify (fun _ => rfl) fun _ => rfl

theorem discount (h : t.Rooted) (owner : ScopeId) :
    (t.discount owner).Rooted ∧ t.Thins (t.discount owner) := h.modify (fun _ => rfl) fun _ => rfl

theorem endTask (h : t.Rooted) (owner : ScopeId) : (t.endTask owner).Rooted ∧ t.Thins (t.endTask owner) := by
  obtain ⟨wf', ht, -⟩ := h.wellFormed.endTask owner h.root
  obtain ⟨hd, hcounted⟩ := h.discount owner
  obtain ⟨hrooted, hleft⟩ := hd.trimmed wf' ht
  refine ⟨hrooted, hleft.next.trans hcounted.next, fun x s' hs' => ?_⟩
  obtain ⟨q, hq, hparent⟩ := hleft.kept x s' hs'
  obtain ⟨s, hs, hparent'⟩ := hcounted.kept x q hq
  exact ⟨s, hs, hparent.trans hparent'⟩

end Rooted

/-! ## Tidy trees -/

/-- Each scope that was released and is still there waits for a task. -/
structure Tidy (t : ScopeTree) : Prop extends Rooted t where
  waiting : ∀ x s, t.find? x = some s → s.marked = true → t.hasPending x

theorem tidy_initial : initial.Tidy := by
  refine ⟨.initial, fun x s hs hm => ?_⟩
  rw [find?_initial] at hs
  split at hs
  · cases hs
    cases hm
  · cases hs

/-- Where the links stay and no scope runs out of tasks, tasks stay pending. -/
theorem hasPending_of_links (wf : t.WellFormed) (wf' : u.WellFormed) (hl : SameLinks t u)
    (hp : ∀ y s, t.find? y = some s → 0 < s.pending → ∃ s', u.find? y = some s' ∧ 0 < s'.pending)
    (h : t.hasPending x) : u.hasPending x := by
  obtain ⟨y, s, hb, hs, hpos⟩ := wf.hasPending_iff.1 h
  obtain ⟨s', hs', hpos'⟩ := hp y s hs hpos
  exact wf'.hasPending_iff.2 ⟨y, s', wf.below_of_links wf' hl hb, hs', hpos'⟩

namespace Tidy

theorem same (h : t.Tidy) (hsame : t.SamePlaces u) : u.Tidy := by
  obtain ⟨hrooted, -⟩ := h.toRooted.same hsame
  refine ⟨hrooted, fun x s' hs' hm => ?_⟩
  obtain ⟨s, hs, hplace⟩ := hsame.symm.find? hs'
  have hpend := h.waiting x s hs ((congrArg Scope.Place.marked hplace).trans hm)
  refine hasPending_of_links h.wellFormed hrooted.wellFormed hsame.sameLinks (fun y q hq hpos => ?_) hpend
  obtain ⟨q', hq', hplace⟩ := hsame.find? hq
  have hpending : q'.pending = q.pending := congrArg Scope.Place.pending hplace
  exact ⟨q', hq', hpending ▸ hpos⟩

theorem create {parent : ScopeId} (h : t.Tidy) (hc : t.create parent = .ok (id, u)) : u.Tidy := by
  have hrooted := h.toRooted.create hc
  have wf := h.wellFormed
  obtain ⟨-, ps, hp, hcreated⟩ := wf.created_of_create hc
  refine ⟨hrooted, fun x s' hs' hm => ?_⟩
  rcases hcreated.find?_cases wf hp hs' with ⟨-, rfl⟩ | ⟨s, hs, heq⟩
  · cases hm
  · rw [heq] at hm
    obtain ⟨y, q, hb, hq, hpos⟩ := wf.hasPending_iff.1 (h.waiting x s hs hm)
    obtain ⟨q', hq', heq, -⟩ := hcreated.find?_old wf hp hq
    refine hrooted.wellFormed.hasPending_iff.2 ⟨y, q', (hcreated.below_old wf hp hq).2 hb, hq', ?_⟩
    rw [heq]
    exact hpos

/-- Idle scopes can be taken out, and with them marked ones that wait for nothing. -/
theorem of_trimmed {l : List ScopeId} (h : t.Rooted) (wf' : u.WellFormed) (ht : Trimmed l t u)
    (hidle : ∀ a ∈ l, ¬t.hasPending a)
    (hwaiting : ∀ x s, t.find? x = some s → s.marked = true → x ∉ l → t.hasPending x) :
    u.Tidy := by
  have wf := h.wellFormed
  refine ⟨(h.trimmed wf' ht).1, fun x s' hs' hm => ?_⟩
  obtain ⟨s, hs, hx, -, -, hmarked⟩ := ht.find?_before hs'
  have hpend := hwaiting x s hs (hmarked.symm.trans hm) fun hmem => hx x hmem (wf.below_refl hs)
  obtain ⟨y, q, hb, hq, hpos⟩ := wf.hasPending_iff.1 hpend
  have hy : ∀ a ∈ l, ¬t.Below a y := fun a ha hab =>
    hidle a ha (wf.hasPending_iff.2 ⟨y, q, hab, hq, hpos⟩)
  obtain ⟨q', hq', -, hpending, -⟩ := ht.kept y q hq hy
  exact wf'.hasPending_iff.2 ⟨y, q', (ht.below_iff wf wf').2 ⟨hb, hy⟩, hq', hpending ▸ hpos⟩

theorem release {r : Release} (h : t.Tidy) (hr : t.release id = .ok (r, u)) : u.Tidy := by
  have wf := h.wellFormed
  obtain ⟨hrooted, -⟩ := h.toRooted.release hr
  obtain ⟨s, p, hs, hp, ⟨hpend, rfl⟩ | ⟨hidle, wf', ht⟩⟩ := wf.marked_or_trimmed hr
  · have hbefore {x : ScopeId} {s' : Scope} (hs' : (t.mark id s).find? x = some s') :=
      find?_of_mark hs hp (Nat.ne_of_lt (wf.parent_lt hs hp)) hs'
    have hmono {x : ScopeId} : t.hasPending x → (t.mark id s).hasPending x := by
      refine hasPending_of_links wf hrooted.wellFormed (sameLinks_mark t id s) fun y q hq hpos => ?_
      obtain ⟨q', hq', -⟩ := (sameLinks_mark t id s).find? hq
      obtain ⟨q₀, hq₀, hpending, -⟩ := hbefore hq'
      rw [hq] at hq₀
      cases hq₀
      exact ⟨q', hq', hpending ▸ hpos⟩
    refine ⟨hrooted, fun x s' hs' hm => ?_⟩
    obtain ⟨q, hq, -, hmarked⟩ := hbefore hs'
    rcases hmarked.1 hm with rfl | hm
    · exact hmono hpend
    · exact hmono (h.waiting x q hq hm)
  · refine of_trimmed h.toRooted wf' ht (fun a ha => ?_) fun x s hs hm _ => h.waiting x s hs hm
    rw [List.mem_singleton.1 ha]
    exact hidle

theorem beginTask (h : t.Tidy) (hb : t.beginTask id = .ok u) : u.Tidy := by
  obtain ⟨hrooted, -⟩ := h.toRooted.beginTask hb
  obtain ⟨c, -, hb⟩ := find?_of_get_bind hb
  cases hb
  refine ⟨hrooted, fun x s' hs' hm => ?_⟩
  have hwaits : t.hasPending x := by
    obtain ⟨s, hs, rfl | rfl⟩ := find?_of_modify hs'
    · exact h.waiting x s hs hm
    · exact h.waiting x s' hs hm
  refine hasPending_of_links h.wellFormed hrooted.wellFormed (t.sameLinks_modify id fun _ => rfl)
    (fun y q hq hpos => ?_) hwaits
  rw [find?_modify, hq]
  split
  · exact ⟨_, rfl, Nat.succ_pos _⟩
  · exact ⟨q, rfl, hpos⟩

/-- A marked scope that waited for the task that ends, and for no other one, is above its owner. -/
theorem endTask (h : t.Tidy) (owner : ScopeId) : (t.endTask owner).Tidy := by
  obtain ⟨wf', ht, -⟩ := h.wellFormed.endTask owner h.root
  have wfd := h.wellFormed.discount owner
  have hlinks := t.sameLinks_discount owner
  have hbefore {x : ScopeId} {s' : Scope} (hs' : (t.discount owner).find? x = some s') :
      ∃ s, t.find? x = some s ∧ s'.marked = s.marked := by
    obtain ⟨s, hs, -⟩ := hlinks.symm.find? hs'
    rw [find?_discount owner hs] at hs'
    cases hs'
    exact ⟨s, hs, rfl⟩
  refine of_trimmed (h.toRooted.discount owner).1 wf' ht (fun a ha => (mem_ready.1 ha).2.2)
    fun x s' hs' hm hx => Classical.byContradiction fun hidle => ?_
  obtain ⟨s, hs, hmarked⟩ := hbefore hs'
  obtain ⟨y, q, hb, hq, hpos⟩ :=
    h.wellFormed.hasPending_iff.1 (h.waiting x s hs (hmarked.symm.trans hm))
  have hb' := h.wellFormed.below_of_links wfd hlinks hb
  by_cases hy : owner = y
  · exact hx (mem_ready.2 ⟨hy ▸ hb', ⟨s', hs', hm⟩, hidle⟩)
  · refine hidle (wfd.hasPending_iff.2 ⟨y, _, hb', find?_discount owner hq, ?_⟩)
    rw [if_neg hy]
    exact hpos

end Tidy

/-! ## Scopes that stand -/

/-- The scope is there, and neither it nor an older one is marked. -/
structure Stands (t : ScopeTree) (x : ScopeId) : Prop where
  there : ∃ s, t.find? x = some s
  unmarked : ∀ y s, y ≤ x → t.find? y = some s → s.marked = false

/-- The places are those of a tree in which the scope stands. -/
structure StandsAmong (v : ScopeId → Option Scope.Place) (x : ScopeId) : Prop where
  there : ∃ p, v x = some p
  unmarked : ∀ y p, y ≤ x → v y = some p → p.marked = false

theorem Placed.stands_iff {v : ScopeId → Option Scope.Place} (h : t.Placed v) :
    t.Stands x ↔ StandsAmong v x := by
  refine ⟨fun hx => ⟨?_, fun y p hy hp => ?_⟩, fun hx => ⟨?_, fun y s hy hs => ?_⟩⟩
  · obtain ⟨s, hs⟩ := hx.there
    exact ⟨s.place, by rw [← h.places, hs]; rfl⟩
  · obtain ⟨s, hs, rfl⟩ := h.find? hp
    exact hx.unmarked y s hy hs
  · obtain ⟨p, hp⟩ := hx.there
    obtain ⟨s, hs, -⟩ := h.find? hp
    exact ⟨s, hs⟩
  · exact hx.unmarked y s.place hy (by rw [← h.places, hs]; rfl)

theorem StandsAmong.adding {v : ScopeId → Option Scope.Place} {parent inner : ScopeId} {depth : Nat}
    (h : StandsAmong v x) (hlt : x < inner) :
    StandsAmong (ScopeTree.adding v parent inner depth) x := by
  unfold ScopeTree.adding
  refine ⟨?_, fun y p hy hp => ?_⟩
  · obtain ⟨p, hp⟩ := h.there
    rw [if_neg (Nat.ne_of_gt hlt), hp]
    split <;> exact ⟨_, rfl⟩
  · rw [if_neg (Nat.ne_of_gt (Nat.lt_of_le_of_lt hy hlt))] at hp
    split at hp
    · obtain ⟨q, hq, rfl⟩ := Option.map_eq_some_iff.1 hp
      exact h.unmarked y q hy hq
    · exact h.unmarked y p hy hp

theorem Tidy.stands_of_idle {s : Scope} (h : t.Tidy) (hs : t.find? x = some s)
    (hidle : ∀ y q, t.find? y = some q → q.pending = 0) : t.Stands x := by
  refine ⟨⟨s, hs⟩, fun y q _ hq => Bool.eq_false_iff.2 fun hm => ?_⟩
  obtain ⟨z, p, -, hp, hpos⟩ := h.wellFormed.hasPending_iff.1 (h.waiting y q hq hm)
  have := hidle z p hp
  omega

namespace Stands

theorem of_old (h : t.Stands x) (hthere : ∃ s, u.find? x = some s)
    (hold : ∀ y s', y ≤ x → u.find? y = some s' → ∃ s, t.find? y = some s ∧ s'.marked = s.marked) :
    u.Stands x := by
  refine ⟨hthere, fun y s' hy hs' => ?_⟩
  obtain ⟨s, hs, hm⟩ := hold y s' hy hs'
  rw [hm]
  exact h.unmarked y s hy hs

theorem same (h : t.Stands x) (hsame : t.SamePlaces u) : u.Stands x := by
  obtain ⟨s, hs⟩ := h.there
  refine h.of_old ?_ fun y s' _ hs' => ?_
  · obtain ⟨s', hs', -⟩ := hsame.find? hs
    exact ⟨s', hs'⟩
  · obtain ⟨s, hs, hplace⟩ := hsame.symm.find? hs'
    exact ⟨s, hs, (congrArg Scope.Place.marked hplace).symm⟩

theorem create {parent : ScopeId} (h : t.Stands x) (wf : t.WellFormed)
    (hc : t.create parent = .ok (id, u)) : u.Stands x := by
  obtain ⟨s, hs⟩ := h.there
  cases hp : t.find? parent with
  | none =>
    unfold ScopeTree.create ScopeTree.get at hc
    rw [hp] at hc
    cases hc
  | some ps =>
    obtain ⟨v, hv, hcreated⟩ := wf.create hp
    rw [hv] at hc
    cases hc
    obtain ⟨s', hs', -⟩ := hcreated.find?_old wf hp hs
    refine h.of_old ⟨s', hs'⟩ fun y q' hy hq' => ?_
    have hne : y ≠ t.nextId := Nat.ne_of_lt (Nat.lt_of_le_of_lt hy (wf.bound x s hs))
    obtain ⟨q, hq⟩ := hcreated.find?_of_ne hp hne hq'
    obtain ⟨q'', hq'', heq, -⟩ := hcreated.find?_old wf hp hq
    rw [hq'] at hq''
    cases hq''
    exact ⟨q, hq, by rw [heq]⟩

/-- Scopes are trimmed of which none is above. -/
theorem of_trimmed {l : List ScopeId} (h : t.Stands x) (ht : Trimmed l t u)
    (hl : ∀ a ∈ l, ¬t.Below a x) : u.Stands x := by
  obtain ⟨s, hs⟩ := h.there
  obtain ⟨s', hs', -⟩ := ht.kept x s hs hl
  refine h.of_old ⟨s', hs'⟩ fun y q' _ hq' => ?_
  obtain ⟨q, hq, -, -, -, hm⟩ := ht.find?_before hq'
  exact ⟨q, hq, hm⟩

theorem release {r : Release} (h : t.Stands x) (wf : t.WellFormed) (hlt : x < id)
    (hr : t.release id = .ok (r, u)) : u.Stands x := by
  have hid : id ≠ ScopeTree.root := Nat.ne_of_gt (Nat.lt_of_le_of_lt (Nat.zero_le x) hlt)
  cases hs : t.find? id with
  | none =>
    unfold ScopeTree.release at hr
    rw [if_neg hid, hs] at hr
    cases hr
  | some s =>
    obtain ⟨p, ps, hp, hps, hplt, -⟩ := wf.parent id s hs hid
    by_cases hpend : t.hasPending id
    · rw [release_of_pending hs hid hpend] at hr
      cases hr
      obtain ⟨q, hq⟩ := h.there
      obtain ⟨q', hq', -⟩ := (sameLinks_mark t id s).find? hq
      refine h.of_old ⟨q', hq'⟩ fun y c' hy hc' => ?_
      obtain ⟨c, hc, -, hm⟩ := find?_of_mark hs hp (Nat.ne_of_lt hplt) hc'
      have hne : y ≠ id := Nat.ne_of_lt (Nat.lt_of_le_of_lt hy hlt)
      exact ⟨c, hc, Bool.eq_iff_iff.2 (hm.trans (or_iff_right hne))⟩
    · obtain ⟨v, hv, hpruned⟩ := wf.release_of_idle hs hp hps hpend
      rw [hv] at hr
      cases hr
      refine h.of_trimmed (hpruned.trimmed hps) fun a ha hb => ?_
      rw [List.mem_singleton.1 ha] at hb
      exact Nat.not_lt.2 (wf.le_of_below hb) hlt

theorem modify {f : Scope → Scope} (h : t.Stands x) (hf : ∀ s, (f s).marked = s.marked) :
    (t.modify id f).Stands x := by
  obtain ⟨s, hs⟩ := h.there
  refine h.of_old ?_ fun y q' _ hq' => ?_
  · rw [find?_modify, hs]
    split <;> exact ⟨_, rfl⟩
  · rw [find?_modify] at hq'
    split at hq'
    · obtain ⟨q, hq, rfl⟩ := Option.map_eq_some_iff.1 hq'
      exact ⟨q, hq, hf q⟩
    · exact ⟨q', hq', rfl⟩

theorem beginTask (h : t.Stands x) (hb : t.beginTask id = .ok u) : u.Stands x := by
  cases hs : t.find? id with
  | none =>
    unfold ScopeTree.beginTask ScopeTree.get at hb
    rw [hs] at hb
    cases hb
  | some s =>
    rw [beginTask_of_find? hs] at hb
    cases hb
    exact h.modify fun _ => rfl

/-- A scope that is removed after a task is marked, so it is not above. -/
theorem endTask (h : t.Stands x) (htidy : t.Tidy) (owner : ScopeId) :
    (t.endTask owner).Stands x := by
  obtain ⟨-, ht, -⟩ := htidy.wellFormed.endTask owner htidy.root
  have hd : (t.discount owner).Stands x := h.modify fun _ => rfl
  refine hd.of_trimmed ht fun a ha hb => ?_
  obtain ⟨-, ⟨s, hs, hm⟩, -⟩ := mem_ready.1 ha
  have hle := (htidy.wellFormed.discount owner).le_of_below hb
  rw [hd.unmarked a s hle hs] at hm
  cases hm

/-- No scope is removed after a task of a scope that stands. -/
theorem endTask_eq (h : t.Stands x) (wf : t.WellFormed) : t.endTask x = t.discount x := by
  have hready : (t.discount x).ready x = [] := by
    refine List.eq_nil_iff_forall_not_mem.2 fun a ha => ?_
    obtain ⟨hb, ⟨s, hs, hm⟩, -⟩ := mem_ready.1 ha
    have hd : (t.discount x).Stands x := h.modify fun _ => rfl
    rw [hd.unmarked a s ((wf.discount x).le_of_below hb) hs] at hm
    cases hm
  change ((t.discount x).ready x).foldl discard (t.discount x) = _
  rw [hready]
  rfl

end Stands

end ScopeTree

end TreeScript
