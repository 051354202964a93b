import TreeScript.Proofs.Pairing.Scopes
import TreeScript.Proofs.Pairing.Task

/-!
# What two runs share

In most pairings the threads of the two runs are equal, and so are their worlds.

* `ThreadForm`: the threads are equal, and known from the line, so whatever is entered is left with
  the thread that it was entered with.
* `WorldForm`: the worlds are equal, and their heap satisfies a property that lasts.

With scopes in which pending tasks are counted alike, both runs spawn the same tasks
(`Lockstep.of_forms`).
-/

namespace TreeScript

namespace Thread

/-- A call that was entered can be left, and then the thread is as before. -/
theorem pop_push (t : Thread) (f : Frame) : (t.push f).pop = .ok (f, t) := by
  obtain ⟨frames, callId, implementation, preparing, rfl⟩ := t
  rfl

/-- Also if the value that the call returns was noted. -/
theorem pop_setResult_push (t : Thread) (f : Frame) (value : Value) :
    ((t.push f).setResult value).pop = .ok ({ f with result := some value }, t) := by
  obtain ⟨frames, callId, implementation, preparing, rfl⟩ := t
  rfl

end Thread

namespace Pairing

variable {P : Pairing}

/-- The threads of a pairing are equal and known from the line; `C` is asked of the functions that
other threads and the one that runs are preparing. -/
structure ThreadForm (P : Pairing) (line : P.Line → Thread) (C : List Nat → List Nat → Prop) :
    Prop where
  threads : ∀ {u held r r'}, P.threads u held r r' ↔
    (r = line u ∧ r' = line u) ∧ C held (line u).preparing
  lines : ∀ t, ∃ u, line u = t
  ready : ∀ u, P.ready u
  same : ∀ {f f'}, P.callees f f' → f' = f
  signable : ∀ {held l id}, C held l → id ∉ l → id ∉ held → P.signable id
  prepare : ∀ {held l id}, P.signable id → (C held (id :: l) ↔ C held l)
  erase : ∀ {held l id}, P.signable id → C held l → C held (l.erase id)
  task : ∀ {held l}, C held l → C (l ++ held) []

/-- Where nothing goes astray, both runs end in the same way. -/
theorem Follows.alike {α : Type} {p : Prop} {v : P.View} {u : P.Line} {x x' : Eval α}
    (hx : P.Follows p Eq Eq v u x x') (hp : p) (hsteady : ∀ s, ¬P.astray s) {s s' : State}
    (hs : P.At v u s s') :
    (x s).Alike (fun _ => P.At v u) P.Apart (x' s') := by
  have hends := hx.ends s s' ⟨hp, hs⟩
  generalize x s = o at hends ⊢
  generalize x' s' = o' at hends ⊢
  cases hends with
  | ok h => exact h.1 ▸ .ok h.2
  | error h => exact h.1 ▸ .error h.2.apart
  | crashed h => exact .crashed h
  | blocked h => exact .blocked h
  | exhausted h => exact .exhausted h
  | astray h => exact absurd h (hsteady _)

/-- What is left of a state that is paired with itself is paired with itself. -/
theorem Follows.apart {α : Type} {x : Eval α} (hx : ∀ v u, P.Follows True Eq Eq v u x x)
    (hsteady : ∀ s, ¬P.astray s) {s t : State} (hs : P.Apart s s)
    (ht : (x s).state? = some t) : P.Apart t t := by
  obtain ⟨v, u, hat⟩ := hs
  have halike := (hx v u).alike trivial hsteady hat
  generalize x s = o at halike ht
  cases halike with
  | ok h =>
    cases ht
    exact h.apart
  | error h | crashed h | blocked h =>
    cases ht
    exact h
  | exhausted => cases ht

namespace ThreadForm

variable {line : P.Line → Thread} {C : List Nat → List Nat → Prop}

/-- Every function can be prepared, and nodes may be visited on every line. -/
theorem of_all (threads : ∀ {u held r r'}, P.threads u held r r' ↔
      (r = line u ∧ r' = line u) ∧ True)
    (lines : ∀ t, ∃ u, line u = t) (ready : ∀ u, P.ready u) (signable : ∀ id, P.signable id)
    (same : ∀ {f f'}, P.functions f f' → f' = f) : P.ThreadForm line fun _ _ => True where
  threads := threads
  lines := lines
  ready := ready
  same h := same h.1
  signable _ _ _ := signable _
  prepare _ := Iff.rfl
  erase _ := id
  task _ := trivial

theorem of_line (h : P.ThreadForm line C) {w : P.Line} {t : Thread} {held : List Nat}
    (hw : line w = t) (hC : C held t.preparing) : P.threads w held t t := by
  subst hw
  exact h.threads.2 ⟨⟨rfl, rfl⟩, hC⟩

theorem exists_line (h : P.ThreadForm line C) {t : Thread} {held : List Nat}
    (hC : C held t.preparing) : ∃ w, P.threads w held t t := by
  obtain ⟨w, hw⟩ := h.lines t
  exact ⟨w, h.of_line hw hC⟩

theorem laws (h : P.ThreadForm line C) : P.ThreadLaws where
  preparing ht := by
    obtain ⟨⟨rfl, rfl⟩, -⟩ := h.threads.1 ht
    rfl
  implementation ht _ := by
    obtain ⟨⟨rfl, rfl⟩, -⟩ := h.threads.1 ht
    rfl
  callId {u held r r'} ht name := by
    obtain ⟨⟨rfl, rfl⟩, hC⟩ := h.threads.1 ht
    obtain ⟨w, hw⟩ := h.lines { line u with callId := some (.generated (line u).depth name) }
    refine ⟨w, fun _ => h.ready w, h.of_line hw hC, fun held q q' hq => ?_⟩
    obtain ⟨⟨rfl, rfl⟩, hC⟩ := h.threads.1 hq
    rw [hw] at hC ⊢
    exact h.threads.2 ⟨⟨rfl, rfl⟩, hC⟩
  callIdBack {u _ _ _ w _ _ _} ht hq := by
    obtain ⟨⟨rfl, rfl⟩, -⟩ := h.threads.1 ht
    obtain ⟨⟨rfl, rfl⟩, hC⟩ := h.threads.1 hq
    exact h.exists_line hC
  prepare {u held r r' id} ht hid hheld := by
    obtain ⟨⟨rfl, rfl⟩, hC⟩ := h.threads.1 ht
    obtain ⟨w, hw⟩ := h.lines { line u with preparing := id :: (line u).preparing }
    have hsign := h.signable hC hid hheld
    refine ⟨hsign, w, fun _ => h.ready w, h.of_line hw ((h.prepare hsign).2 hC), fun held q q' hq => ?_⟩
    obtain ⟨⟨rfl, rfl⟩, hC⟩ := h.threads.1 hq
    rw [hw] at hC ⊢
    refine h.threads.2 ⟨⟨?_, ?_⟩, (h.prepare hsign).1 hC⟩ <;> simp only [List.erase_cons_head]
  prepareBack hq hsign := by
    obtain ⟨⟨rfl, rfl⟩, hC⟩ := h.threads.1 hq
    exact h.exists_line (h.erase hsign hC)
  frame {u held r r' f f'} ht hf arguments scope := by
    obtain ⟨⟨rfl, rfl⟩, hC⟩ := h.threads.1 ht
    cases h.same hf
    obtain ⟨w, hw⟩ := h.lines ((line u).push ⟨f, arguments, scope, none⟩)
    refine ⟨w, h.ready w, h.of_line hw hC, fun held q q' hq => ?_⟩
    obtain ⟨⟨rfl, rfl⟩, hC⟩ := h.threads.1 hq
    rw [hw] at hC ⊢
    have hback := h.threads.2 ⟨⟨rfl, rfl⟩, hC⟩
    exact ⟨⟨_, _, _, _, Thread.pop_push _ _, Thread.pop_push _ _, hback⟩, fun value =>
      ⟨_, _, _, _, Thread.pop_setResult_push _ _ value, Thread.pop_setResult_push _ _ value, hback⟩⟩
  frameBack {w _ _ _} hq := by
    obtain ⟨⟨rfl, rfl⟩, hC⟩ := h.threads.1 hq
    refine h.exists_line ?_
    rw [Thread.preparing_drop]
    exact hC
  task {u held r r'} ht id := by
    obtain ⟨⟨rfl, rfl⟩, hC⟩ := h.threads.1 ht
    exact h.exists_line (h.task hC)

end ThreadForm

/-- The worlds of a pairing are equal, with a heap that satisfies `J`. -/
structure WorldForm (P : Pairing) (J : Heap → Prop) : Prop where
  world : ∀ {w w'}, P.world w w' ↔ w' = w ∧ J w.heap
  extend : ∀ {h h'}, J h → h.Extends h' → J h'
  assign : ∀ {h h' ref name value}, J h → h.assignField ref name value = .ok (some h') → J h'

namespace WorldForm

variable {J : Heap → Prop}

theorem of_eq (world : ∀ {w w'}, P.world w w' ↔ w' = w ∧ True) : P.WorldForm fun _ => True where
  world := world
  extend _ _ := trivial
  assign _ _ := trivial

/-- A computation that only adds to the world follows itself. -/
theorem onWorlds {ε α : Type} (h : P.WorldForm J) {x : Step World ε α}
    (hx : ∀ w, w.entered.toList <+: (x w).reached.entered.toList ∧
      w.heap.Extends (x w).reached.heap) : P.OnWorlds x x := by
  refine ⟨fun w => (hx w).1, fun w w' hw => ?_⟩
  obtain ⟨rfl, hJ⟩ := h.world.1 hw
  have hend := (hx w').2
  have hworld {t : World} (ht : w'.heap.Extends t.heap) : P.world t t :=
    h.world.2 ⟨rfl, h.extend hJ ht⟩
  cases ho : x w' <;> rw [ho] at hend
  case ok => exact .ok ⟨rfl, hworld hend⟩
  case error => exact .error ⟨rfl, hworld hend⟩
  case crashed => exact .crashed (hworld hend)
  case blocked => exact .blocked (hworld hend)
  case exhausted => exact .exhausted (hworld hend)

theorem native (h : P.WorldForm J) (n : Native) (thread : Thread) (receiver : Option Value)
    (arguments : List Value) :
    P.OnWorlds (n.invoke thread receiver arguments) (n.invoke thread receiver arguments) := by
  refine h.onWorlds fun w => ?_
  have hinvoked := n.invoked thread receiver arguments w
  exact ⟨hinvoked.entered_grows, hinvoked.heap⟩

theorem routine (h : P.WorldForm J) (r : Routine) (thread : Thread) :
    P.OnWorlds (r.run thread none []) (r.run thread none []) := by
  refine h.onWorlds fun w => ?_
  have hadvances := r.advances thread none [] w
  exact ⟨hadvances.entered_grows, hadvances.heap⟩

theorem laws (h : P.WorldForm J) (engine : Engine)
    (ht : ∀ {u held r r'}, P.threads u held r r' → r' = r) : P.WorldLaws engine where
  native {_ _ r _ _ n} _ hr receiver arguments := ht hr ▸ h.native n r receiver arguments
  assignField hw ha := by
    obtain ⟨rfl, hJ⟩ := h.world.1 hw
    exact h.world.2 ⟨rfl, h.assign hJ ha⟩
  extend hw hx := by
    obtain ⟨rfl, hJ⟩ := h.world.1 hw
    exact h.world.2 ⟨rfl, h.extend hJ hx⟩
  gates hw := by rw [(h.world.1 hw).1]

end WorldForm

/-- The laws about errors where functions, errors and texts are equal. -/
theorem ErrorLaws.of_eq (herrors : P.errors = Eq) (htexts : P.texts = Eq)
    (hfunctions : ∀ {f f'}, P.functions f f' → f' = f) : P.ErrorLaws where
  refl _ := by rw [herrors]
  located h span := by
    rw [herrors] at h ⊢
    rw [h]
  inside h ht name := by
    rw [herrors] at h ⊢
    rw [htexts] at ht
    rw [h, ht]
  within ht name := by
    rw [htexts] at ht
    rw [herrors, ht]
  text hf s := by
    rw [htexts, hfunctions hf]
    exact rel_self fun _ _ => rfl

/-- Both runs spawn the same tasks if their threads and worlds are equal and pending tasks are
counted alike. -/
theorem Lockstep.of_forms {F : Facets} {I : P.View → ScopeTree → Prop} {line : P.Line → Thread}
    {C : List Nat → List Nat → Prop} {J : Heap → Prop} (hs : P.ScopeForm F I)
    (hP : ∀ id a b, F.pending id a b ↔ b = a) (ht : P.ThreadForm line C) (hw : P.WorldForm J)
    (hsteady : ∀ s, ¬P.astray s) (hview : ∀ {v w t}, I v t → I w t)
    (hbegin : ∀ {v t owner u}, I v t → t.beginTask owner = .ok u → I v u)
    (hend : ∀ {v t}, I v t → ∀ owner, I v (t.endTask owner))
    (htasks : ∀ {a a'}, P.tasks a a' ↔ List.Forall₂ (Task.Paired P.errors) a.toList a'.toList)
    (hjobs : ∀ {j j'}, P.jobs j j' ↔ j.Paired P.callees j') : P.Lockstep where
  steady := hsteady
  view h w := hs.scopes.2 ⟨(hs.scopes.1 h).1, hview (hs.scopes.1 h).2⟩
  threads h := by
    obtain ⟨⟨rfl, rfl⟩, -⟩ := ht.threads.1 h
    rfl
  routine := hw.routine
  rollback h h' := by
    obtain ⟨rfl, hJ⟩ := hw.world.1 h
    obtain ⟨rfl, -⟩ := hw.world.1 h'
    exact hw.world.2 ⟨rfl, hJ⟩
  beginTask h owner := by
    obtain ⟨hp, hI⟩ := hs.scopes.1 h
    exact (hp.beginTask hP owner).imp fun _ _ hb hu => hs.scopes.2 ⟨hu, hbegin hI hb⟩
  endTask h owner := by
    obtain ⟨hp, hI⟩ := hs.scopes.1 h
    exact hs.scopes.2 ⟨hp.endTask hs.lawful hP owner, hend hI owner⟩
  tasks := htasks
  jobs := hjobs
  async hf := by
    rw [ht.same hf]
    exact id

end Pairing

end TreeScript
