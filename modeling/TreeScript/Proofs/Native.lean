import TreeScript.Native.Basic
import TreeScript.Proofs.Following

/-!
# What native routines do

A native routine extends the heap (`Routine.advances`). One that does not read the thread that calls it
does the same for every thread.

* `Native.invoked`: a native function extends the heap, and enters its routine once at most.
* `Native.invoke_congr`: it does the same for every thread, unless its routine reads the thread.
-/

namespace TreeScript

namespace World.Advances

theorem entered_grows {w w' : World} (h : w.Advances w') : w.entered.toList <+: w'.entered.toList :=
  h.entered ▸ List.prefix_refl _

end World.Advances

namespace Routine

/-- What the routine does depends on the thread that calls it. -/
def ReadsThread (r : Routine) : Prop :=
  ∃ thread thread' receiver arguments,
    r.run thread receiver arguments ≠ r.run thread' receiver arguments

theorem run_congr {routine : Routine} (h : ¬routine.ReadsThread) (thread thread' : Thread)
    (receiver : Option Value) (arguments : List Value) :
    routine.run thread receiver arguments = routine.run thread' receiver arguments :=
  Classical.byContradiction fun hne => h ⟨thread, thread', receiver, arguments, hne⟩

/-- The routine does not break off. -/
def Steady (r : Routine) : Prop :=
  ∀ thread receiver arguments w w', r.run thread receiver arguments w ≠ .crashed w'

end Routine

/-! ## Native functions -/

namespace Native

variable {n : Native} {thread thread' : Thread} {receiver : Option Value} {arguments : List Value}
  {w w' : World}

/-- What calling the function does to the world: it enters the routine once, or refuses before
that. -/
structure Invoked (n : Native) (w w' : World) : Prop where
  heap : w.heap.Extends w'.heap
  entered : w'.entered = w.entered ∨ ∃ receiver arguments,
    w'.entered = w.entered.push ⟨n.name, n.signature, receiver, arguments⟩

theorem Invoked.entered_grows {n : Native} {w w' : World} (h : n.Invoked w w') :
    w.entered.toList <+: w'.entered.toList := by
  rcases h.entered with he | ⟨receiver, arguments, he⟩
  · exact he ▸ List.prefix_refl _
  · rw [he, Array.toList_push]
    exact List.prefix_append _ _

theorem perform_eq (n : Native) (thread : Thread) (receiver : Option Value) (arguments : List Value)
    (w : World) : n.perform thread receiver arguments w =
      match n.signature.coerce arguments with
      | .error e => .error e w
      | .ok coerced => (n.routine.run thread receiver coerced
          (w.enter ⟨n.name, n.signature, receiver, coerced⟩)).andThen fun result w =>
            Step.ofExcept (n.signature.conclude result) w := by
  unfold perform
  cases n.signature.coerce arguments <;> rfl

/-- Where the arguments are taken, the routine is entered, and the world is the one it leaves. -/
theorem reached_perform {coerced : List Value} (hc : n.signature.coerce arguments = .ok coerced) :
    (n.perform thread receiver arguments w).reached = (n.routine.run thread receiver coerced
      (w.enter ⟨n.name, n.signature, receiver, coerced⟩)).reached := by
  rw [perform_eq, hc]
  dsimp only
  generalize n.routine.run thread receiver coerced _ = o
  cases o with
  | ok result u =>
    simp only [Outcome.andThen]
    cases n.signature.conclude result <;> rfl
  | error | crashed | blocked | exhausted => rfl

theorem invoked_perform (n : Native) (thread : Thread) (receiver : Option Value)
    (arguments : List Value) (w : World) :
    n.Invoked w (n.perform thread receiver arguments w).reached := by
  cases hc : n.signature.coerce arguments with
  | error e =>
    rw [perform_eq, hc]
    exact ⟨.refl _, .inl rfl⟩
  | ok coerced =>
    rw [reached_perform hc]
    have hrun := n.routine.advances thread receiver coerced
      (w.enter ⟨n.name, n.signature, receiver, coerced⟩)
    exact ⟨hrun.heap, .inr ⟨receiver, coerced, hrun.entered⟩⟩

/-- The function does the same for every thread, or it reads the thread and is entered. -/
theorem perform_congr (n : Native) (thread thread' : Thread) (receiver : Option Value)
    (arguments : List Value) (w : World) :
    n.perform thread' receiver arguments w = n.perform thread receiver arguments w ∨
      n.routine.ReadsThread ∧ ∃ coerced, (n.perform thread receiver arguments w).reached.entered =
        w.entered.push ⟨n.name, n.signature, receiver, coerced⟩ := by
  by_cases hr : n.routine.ReadsThread
  · cases hc : n.signature.coerce arguments with
    | error e =>
      rw [perform_eq, perform_eq, hc]
      exact .inl rfl
    | ok coerced =>
      refine .inr ⟨hr, coerced, ?_⟩
      rw [reached_perform hc]
      exact (n.routine.advances ..).entered
  · left
    simp only [perform_eq, Routine.run_congr hr thread' thread]

theorem reached_mapError {σ ε ε' α : Type} (x : Step σ ε α) (f : ε → ε') (s : σ) :
    (x.mapError f s).reached = (x s).reached := by
  unfold Step.mapError Step.mapErrorWith
  cases x s <;> rfl

theorem state?_mapError {σ ε ε' α : Type} (x : Step σ ε α) (f : ε → ε') (s : σ) :
    (x.mapError f s).state? = (x s).state? := by
  unfold Step.mapError Step.mapErrorWith
  cases x s <;> rfl

theorem mapError_id {σ ε α : Type} (x : Step σ ε α) : x.mapError id = x := by
  funext s
  unfold Step.mapError Step.mapErrorWith
  cases x s <;> rfl

/-- A call is refused, whatever the thread, or it is carried out. -/
theorem invoke_cases (n : Native) (receiver : Option Value) (arguments : List Value) :
    (∃ e, ∀ thread, n.invoke thread receiver arguments = Step.fail e) ∨
      ∃ taken f, ∀ thread,
        n.invoke thread receiver arguments = (n.perform thread taken arguments).mapError f := by
  unfold invoke
  split
  · exact .inl ⟨_, fun _ => rfl⟩
  · cases n.kind with
    | builtin => exact .inr ⟨none, id, fun _ => (mapError_id _).symm⟩
    | static => exact .inr ⟨none, id, fun _ => (mapError_id _).symm⟩
    | creator => exact .inr ⟨none, constructionFailure, fun _ => rfl⟩
    | member =>
      cases receiver with
      | none => exact .inl ⟨_, fun _ => rfl⟩
      | some receiver => exact .inr ⟨some receiver, id, fun _ => (mapError_id _).symm⟩

theorem invoked (n : Native) (thread : Thread) (receiver : Option Value) (arguments : List Value)
    (w : World) : n.Invoked w (n.invoke thread receiver arguments w).reached := by
  rcases n.invoke_cases receiver arguments with ⟨e, he⟩ | ⟨taken, f, hf⟩
  · rw [he]
    exact ⟨.refl _, .inl rfl⟩
  · rw [hf, reached_mapError]
    exact n.invoked_perform thread taken arguments w

theorem crashed_of_mapError {σ ε ε' α : Type} {x : Step σ ε α} {f : ε → ε'} {s t : σ}
    (h : x.mapError f s = .crashed t) : x s = .crashed t := by
  unfold Step.mapError Step.mapErrorWith at h
  cases hx : x s <;> rw [hx] at h <;> cases h
  rfl

/-- A function whose routine does not break off does not either. -/
theorem invoke_ne_crashed (h : n.routine.Steady) :
    n.invoke thread receiver arguments w ≠ .crashed w' := by
  intro hcrashed
  rcases n.invoke_cases receiver arguments with ⟨e, he⟩ | ⟨taken, f, hf⟩
  · rw [he] at hcrashed
    cases hcrashed
  · rw [hf] at hcrashed
    have hperform := crashed_of_mapError hcrashed
    rw [perform_eq] at hperform
    cases hc : n.signature.coerce arguments with
    | error e =>
      rw [hc] at hperform
      cases hperform
    | ok coerced =>
      rw [hc] at hperform
      dsimp only at hperform
      generalize hrun : n.routine.run thread taken coerced _ = o at hperform
      cases o with
      | crashed => exact h _ _ _ _ _ hrun
      | ok result u =>
        simp only [Outcome.andThen] at hperform
        cases hr : n.signature.conclude result <;> rw [hr] at hperform <;> cases hperform
      | error | blocked | exhausted => cases hperform

/-- A call does the same for every thread, or its routine reads the thread and is entered. -/
theorem invoke_congr (n : Native) (thread thread' : Thread) (receiver : Option Value)
    (arguments : List Value) (w : World) :
    n.invoke thread' receiver arguments w = n.invoke thread receiver arguments w ∨
      n.routine.ReadsThread ∧ ∃ taken coerced,
        (n.invoke thread receiver arguments w).reached.entered =
          w.entered.push ⟨n.name, n.signature, taken, coerced⟩ := by
  rcases n.invoke_cases receiver arguments with ⟨e, he⟩ | ⟨taken, f, hf⟩
  · rw [he, he]
    exact .inl rfl
  · rcases n.perform_congr thread thread' taken arguments w with h | ⟨hr, coerced, hentered⟩
    · left
      rw [hf, hf]
      unfold Step.mapError Step.mapErrorWith
      rw [h]
    · exact .inr ⟨hr, taken, coerced, by rw [hf, reached_mapError, hentered]⟩

end Native

end TreeScript
