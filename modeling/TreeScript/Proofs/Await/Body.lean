import TreeScript.Proofs.Await.Twin

/-!
# The body of a function on another thread

What the body of a function does depends on little of what surrounds the call: not on the calls below
its own, not on the id of the call, not on how many tasks are pending in the scope of the caller. So a
body does the same on the thread of the caller and on the thread of a task, as long as it spawns no task
itself and enters no native routine that reads the thread (`Pairing.detached`).
-/

namespace TreeScript

open Eval

/-! ## Threads -/

/-- The implementations whose functions are running, and the functions that are being prepared, as far
as they are known of a thread. -/
structure Thread.On (t : Thread) (u : List (Option String) × List Nat) : Prop where
  calls : u.1 <+: t.frames.map (·.function.implementation)
  preparing : t.preparing = u.2

namespace Thread.On

variable {t t' : Thread} {u : List (Option String) × List Nat}

/-- Inside of a known call, the implementation is known. -/
theorem implementation_eq (h : t.On u) (h' : t'.On u) (hu : u.1 ≠ []) :
    t'.implementation = t.implementation := by
  have htop {t : Thread} (h : t.On u) : t.implementation = u.1.head?.bind id := by
    obtain ⟨hcalls, -⟩ := h
    rw [t.consistent]
    cases hu₁ : u.1 with
    | nil => exact absurd hu₁ hu
    | cons i rest =>
      rw [hu₁] at hcalls
      cases hframes : t.frames with
      | nil =>
        rw [hframes] at hcalls
        exact absurd hcalls (by simp)
      | cons f frames =>
        rw [hframes, List.map_cons, List.cons_prefix_cons] at hcalls
        rw [hcalls.1]
        rfl
  rw [htop h, htop h']

theorem push (h : t.On u) (f : Frame) : (t.push f).On (f.function.implementation :: u.1, u.2) :=
  ⟨List.cons_prefix_cons.2 ⟨rfl, h.calls⟩, h.preparing⟩

theorem setResult (h : t.On u) (value : Value) : (t.setResult value).On u := by
  obtain ⟨hcalls, hpreparing⟩ := h
  obtain ⟨_ | _, _⟩ := t <;> exact ⟨hcalls, hpreparing⟩

theorem pop {i : Option String} {calls : List (Option String)} {preparing : List Nat}
    (h : t.On (i :: calls, preparing)) : ∃ f r, t.pop = .ok (f, r) ∧ r.On (calls, preparing) := by
  obtain ⟨hcalls, hpreparing⟩ := h
  obtain ⟨_ | ⟨f, frames⟩, _⟩ := t
  · exact absurd hcalls (by simp)
  · exact ⟨f, _, rfl, (List.cons_prefix_cons.1 hcalls).2, hpreparing⟩

end Thread.On

/-! ## The pairing -/

/-- A native routine that reads the thread was entered. -/
def Engine.ReadsThread (engine : Engine) (entry : Native.Entry) : Prop :=
  ∃ name, ∃ n ∈ engine.natives name,
    n.name = entry.name ∧ n.signature = entry.signature ∧ n.routine.ReadsThread

/-- Where the bodies of a function and its twin start. -/
structure Start where
  /-- The id of the function. -/
  function : Nat
  /-- The scope of the caller, in which the task is counted. -/
  owner : ScopeId
  /-- The number of tasks. -/
  tasks : Nat
  /-- The number of native routines that were entered. -/
  entered : Nat

/-- A body that runs on two threads, the first that of a task. The first run goes astray with another
task, and with a native routine that reads the thread. -/
def Pairing.detached (engine : Engine) (start : Start) : Pairing where
  View := { v : ScopeId → Option Scope.Place // ScopeTree.StandsAmong v start.owner }
  Line := List (Option String) × List Nat
  scopes v t t' := t.Paired (.twins start.function start.owner 1) t' ∧ t.Placed v.1
  threads u _ r r' := r.On u ∧ r'.On u
  world w w' := w' = w ∧ start.entered ≤ w.entered.size
  heap h := World.heap_eq_of_eq_and h
  tasks a a' := start.tasks ≤ a.size ∧ ∀ i : Nat,
    Option.Rel (Results Eq Error.Resembles) (a[i]?.bind (·.outcome)) (a'[i]?.bind (·.outcome))
  jobs _ _ := False
  signable _ := True
  functions := ScriptFunction.Twin start.function
  errors := Error.Resembles
  texts := Unprefixed
  allowed v scope _ := ∃ p, v.1 scope = some p
  ready u := u.1 ≠ []
  astray s := start.tasks < s.tasks.size ∨
    ∃ entry ∈ s.world.entered.toList.drop start.entered, engine.ReadsThread entry
  astray_mono h ha := by
    obtain ⟨later, hlater⟩ := h.entered
    refine ha.imp (Nat.lt_of_lt_of_le · h.tasks) fun ⟨entry, hmem, hreads⟩ => ⟨entry, ?_, hreads⟩
    rw [← hlater, List.drop_append]
    exact List.mem_append_left _ hmem

namespace Pairing

variable {engine : Engine} {start : Start}

theorem scopeForm_detached : (detached engine start).ScopeForm
    (.twins start.function start.owner 1) fun v t => t.Placed v.1 where
  lawful := Facets.lawful_twins ..
  functions := rfl
  scopes := Iff.rfl
  same h hsame := h.same hsame
  jumps _ h _ _ _ := by rw [h]

theorem threadLaws_detached : (detached engine start).ThreadLaws where
  preparing h := h.2.preparing.trans h.1.preparing.symm
  implementation h hu := h.1.implementation_eq h.2 hu
  callId {u held r r'} h name := by
    refine ⟨u, id, ⟨?_, ?_⟩, fun held q q' hq => ⟨?_, ?_⟩⟩
    · exact ⟨h.1.calls, h.1.preparing⟩
    · exact ⟨h.2.calls, h.2.preparing⟩
    · exact ⟨hq.1.calls, hq.1.preparing⟩
    · exact ⟨hq.2.calls, hq.2.preparing⟩
  callIdBack {u held r r' w _ q q'} _ hq := by
    refine ⟨w, ⟨?_, ?_⟩⟩
    · exact ⟨hq.1.calls, hq.1.preparing⟩
    · exact ⟨hq.2.calls, hq.2.preparing⟩
  prepare {u held r r' id} h _ _ := by
    have hback {q : Thread} (hq : q.On (u.1, id :: u.2)) :
        Thread.On { q with preparing := q.preparing.erase id } u :=
      ⟨hq.calls, by simp only [hq.preparing, List.erase_cons_head]⟩
    refine ⟨trivial, (u.1, id :: u.2), fun hu => hu, ⟨?_, ?_⟩, fun held q q' hq =>
      ⟨hback hq.1, hback hq.2⟩⟩
    · exact ⟨h.1.calls, congrArg (id :: ·) h.1.preparing⟩
    · exact ⟨h.2.calls, congrArg (id :: ·) h.2.preparing⟩
  prepareBack {w held q q' id} hq _ := by
    refine ⟨(w.1, w.2.erase id), ⟨?_, ?_⟩⟩
    · exact ⟨hq.1.calls, congrArg (·.erase id) hq.1.preparing⟩
    · exact ⟨hq.2.calls, congrArg (·.erase id) hq.2.preparing⟩
  frame {u held r r' f f'} h hf arguments scope := by
    have hpop {held : List Nat} {q q' : Thread} (h : q.On (f.implementation :: u.1, u.2))
        (h' : q'.On (f.implementation :: u.1, u.2)) : (detached engine start).Popped u held q q' := by
      obtain ⟨a, t, ha, ht⟩ := h.pop
      obtain ⟨a', t', ha', ht'⟩ := h'.pop
      exact ⟨a, a', t, t', ha, ha', ht, ht'⟩
    have hpush' := h.2.push ⟨f', arguments, scope, none⟩
    rw [show f'.implementation = f.implementation from hf.1.implementation] at hpush'
    exact ⟨(f.implementation :: u.1, u.2), List.cons_ne_nil _ _, ⟨h.1.push _, hpush'⟩,
      fun held q q' hq => ⟨hpop hq.1 hq.2, fun value =>
        hpop (hq.1.setResult value) (hq.2.setResult value)⟩⟩
  frameBack {w _ q q'} hq := by
    refine ⟨([], w.2), ⟨List.nil_prefix, ?_⟩, List.nil_prefix, ?_⟩
    · rw [Thread.preparing_drop, hq.1.preparing]
    · rw [Thread.preparing_drop, hq.2.preparing]
  task _ id := ⟨([], []), ⟨List.nil_prefix, rfl⟩, List.nil_prefix, rfl⟩

theorem worldLaws_detached : (detached engine start).WorldLaws engine where
  native {u held r r' name n} hn _ receiver arguments := by
    have hinvoked := n.invoked r receiver arguments
    refine ⟨fun w => (hinvoked w).entered_grows, ?_⟩
    rintro _ w ⟨rfl, hw⟩
    have hend := (hinvoked w).entered_grows.length_le
    rcases n.invoke_congr r r' receiver arguments w with heq | ⟨hreads, taken, coerced, hentered⟩
    · rw [heq]
      have hle : start.entered ≤ (n.invoke r receiver arguments w).reached.entered.size :=
        Nat.le_trans hw (by simpa using hend)
      generalize n.invoke r receiver arguments w = o at hle
      cases o with
      | ok => exact .ok ⟨rfl, rfl, hle⟩
      | error => exact .error ⟨rfl, rfl, hle⟩
      | crashed => exact .crashed ⟨rfl, hle⟩
      | blocked => exact .blocked ⟨rfl, hle⟩
      | exhausted => exact .exhausted ⟨rfl, hle⟩
    · refine .astray fun s => .inr ⟨⟨n.name, n.signature, taken, coerced⟩, ?_, name, n, hn, rfl, rfl,
        hreads⟩
      show _ ∈ (n.invoke r receiver arguments w).reached.entered.toList.drop start.entered
      rw [hentered, Array.toList_push, List.drop_append_of_le_length hw]
      simp
  assignField h _ := ⟨by rw [h.1], h.2⟩
  extend h _ := ⟨by rw [h.1], h.2⟩
  gates h := by rw [h.1]

theorem laws_detached : (detached engine start).Laws engine where
  toScopeLaws := scopeForm_detached.placed (fun v _ _ _ hlow => ⟨⟨_, v.2.adding hlow⟩, rfl⟩)
    (fun _ h => (Nat.eq_zero_of_add_eq_zero h.symm).1)
    fun _ _ _ _ hinner => ⟨fun _ _ => hinner, fun _ _ _ => hinner⟩
  toThreadLaws := threadLaws_detached
  toWorldLaws := worldLaws_detached
  toFunctionLaws := {
    resembles := fun h => h.resembles
    sync := fun h => h.1.sync
    made := fun _ _ => .inl rfl
    child := fun h _ => h
    default := fun h _ _ _ => h }
  toErrorLaws := .of_twins rfl rfl id

theorem visits_detached (limit : Nat) :
    (detached engine start).Visits (visit engine limit) (visit engine limit) := by
  have hl : (detached engine start).Laws engine := laws_detached
  refine hl.visits (fun visit visit' hv => .of_idle hl hv (fun _ _ => id) ?_ fun h => h.2) limit
  intro v u n scope f f' s s' bound returns hn hf hasync hat
  obtain ⟨p, hp⟩ := hn
  obtain ⟨c, hc, -⟩ := hat.scopes.2.find? hp
  exact hl.astray_launch hv v u hasync hc
    (fun t ht => .inl (Nat.lt_of_le_of_lt hat.tasks.1 ht)) bound returns

/-- **Bodies.** The body of a function and that of its twin follow each other. -/
theorem body_detached {f f' : ScriptFunction} (hf : f.Twin start.function f') (limit : Nat)
    {v : (detached engine start).View} {u : (detached engine start).Line} {s s' : State}
    (hat : (detached engine start).At v u s s') (scope : ScopeId) (bound : List (Parameter × Value))
    (returns : ValueType) :
    (runWork (visit engine limit) (.call scope f bound returns) s).Follows (detached engine start).terms
      (fun a a' t t' => a = a' ∧ (detached engine start).At v u t t')
      (fun e e' t t' => e.Resembles e' ∧ (detached engine start).At v u t t')
      (detached engine start).Apart
      (runWork (visit engine limit) (.call scope f' bound returns) s') :=
  (laws_detached.runWork_call (visits_detached limit) hf.resembles (fun _ => ⟨hf, trivial⟩) bound
    returns).ends s s' ⟨trivial, hat⟩

end Pairing

end TreeScript
