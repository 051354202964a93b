import TreeScript.Proofs.Await.Twin

/-!
# Preparing a function and its twin

The default values of a function are evaluated in the same way whether the function is asynchronous or
not. Default values may spawn tasks, so the two runs are compared in lockstep; but none of them, nor a
task, can get into the body of the function itself while it is being prepared (`T ∈ u.preparing` or
`T ∈ held`). Every function that they do get into is thus the same on both sides.

Once the function is prepared that is over. What is left is the relation between the states
(`Pairing.twinned T K False`), in which the scope `K` of the call stands.
-/

namespace TreeScript

open Eval

/-- Two runs that have the function `T` and its twin bound, in which the scope `K` stands. While the
function is being prepared (`preparing`) it cannot be called. -/
def Pairing.twinned (T : Nat) (K : ScopeId) (preparing : Prop) : Pairing where
  View := Unit
  Line := Thread
  scopes _ t t' := t.Paired (.twins T K 0) t' ∧ t.Tidy ∧ t.Stands K
  threads u held r r' :=
    (r = u ∧ r' = u) ∧ (preparing → T ∈ u.preparing ∨ T ∈ held)
  world w w' := w' = w ∧ True
  heap := @World.heap_eq_of_eq_and True
  tasks a a' := List.Forall₂ (Task.Paired Error.Resembles) a.toList a'.toList
  jobs j j' := j.Paired (fun f f' => f.Twin T f' ∧ (preparing → f.id ≠ T)) j'
  signable id := preparing → id ≠ T
  functions := ScriptFunction.Twin T
  errors := Error.Resembles
  texts := Unprefixed
  allowed _ _ _ := True
  ready _ := True
  astray _ := False
  astray_mono _ h := h

namespace Pairing

variable {T : Nat} {K : ScopeId}

theorem scopeForm_twinned {preparing : Prop} : (twinned T K preparing).ScopeForm (.twins T K 0)
    fun _ t => t.Tidy ∧ t.Stands K where
  lawful := Facets.lawful_twins T K 0
  functions := rfl
  scopes := Iff.rfl
  same h hsame := ⟨h.1.same hsame, h.2.same hsame⟩
  jumps _ h _ _ _ := by rw [h]

theorem threadForm_twinned : (twinned T K True).ThreadForm id
    fun held l => True → T ∈ l ∨ T ∈ held where
  threads := Iff.rfl
  lines t := ⟨t, rfl⟩
  ready _ := trivial
  same h := h.1.elim id fun hT => absurd hT.1 (h.2 trivial)
  signable hC hid hheld _ := by
    rintro rfl
    exact (hC trivial).elim hid hheld
  prepare hid := by
    refine imp_congr Iff.rfl (or_congr ?_ Iff.rfl)
    rw [List.mem_cons, or_iff_right (hid trivial).symm]
  erase hid hC _ := (hC trivial).imp_left (List.mem_erase_of_ne (hid trivial).symm).2
  task hC _ := .inr (List.mem_append.2 (hC trivial))

theorem worldForm_twinned {preparing : Prop} :
    (twinned T K preparing).WorldForm fun _ => True := .of_eq Iff.rfl

theorem lockstep_twinned : (twinned T K True).Lockstep :=
  .of_forms scopeForm_twinned (Facets.pending_twins T K) threadForm_twinned worldForm_twinned
    (fun _ => id) id (fun h hb => ⟨h.1.beginTask hb, h.2.beginTask hb⟩)
    (fun h owner => ⟨h.1.endTask owner, h.2.endTask h.1 owner⟩) Iff.rfl Iff.rfl

theorem laws_twinned (engine : Engine) : (twinned T K True).Laws engine where
  toScopeLaws := scopeForm_twinned.steady (Facets.pending_twins T K)
    (fun h hc => ⟨h.1.create hc, h.2.create h.1.wellFormed hc⟩)
    (fun h hlow hr => ⟨h.1.release hr, h.2.release h.1.wellFormed hlow hr⟩)
    fun _ _ _ _ => ⟨fun _ => id, fun _ _ _ => trivial⟩
  toThreadLaws := threadForm_twinned.laws
  toWorldLaws := worldForm_twinned.laws engine lockstep_twinned.threads
  toFunctionLaws := {
    resembles := fun h => h.resembles
    sync := fun h => h.1.sync
    made := fun _ _ => .inl rfl
    child := fun _ _ => trivial
    default := fun _ _ _ _ => trivial }
  toErrorLaws := .of_twins rfl rfl id

/-- Visits follow each other while the function is being prepared. -/
theorem visits_twinned (engine : Engine) (limit : Nat) :
    (twinned T K True).Visits (visit engine limit) (visit engine limit) :=
  (laws_twinned engine).visits (fun _ _ hv => lockstep_twinned.rules (laws_twinned engine) hv) limit

end Pairing

/-! ## The signature -/

namespace Eval

variable {visit : Visit} {scope : ScopeId} {f : ScriptFunction} {s : State}

theorem prepare_of_prepared {signature : Signature}
    (h : s.signatures.find? f.id = some signature) : prepare visit scope f s = .ok signature s := by
  unfold prepare
  rw [Step.run_bind]
  simp only [Step.get, Outcome.andThen, h, Step.run_pure]

theorem prepare_of_held (hnew : s.signatures.find? f.id = none) (hfree : f.id ∉ s.thread.preparing)
    (hheld : f.id ∈ s.held) : prepare visit scope f s = .blocked s := by
  unfold prepare
  rw [Step.run_bind]
  simp only [Step.get, Outcome.andThen, hnew, List.contains_iff_mem, hfree, hheld, if_false, if_true,
    Step.block]

/-- The evaluation of the default values of a function that has not been prepared and is not being
prepared. -/
theorem prepare_run (hnew : s.signatures.find? f.id = none) (hfree : f.id ∉ s.thread.preparing)
    (hheld : f.id ∉ s.held) :
    prepare visit scope f s =
      match f.parameters.mapM (prepareParameter visit scope)
        { s with thread := { s.thread with preparing := f.id :: s.thread.preparing } } with
      | .ok parameters t => .ok ⟨parameters, f.returns⟩ { t with
          signatures := t.signatures.insert f.id ⟨parameters, f.returns⟩
          thread := { t.thread with preparing := t.thread.preparing.erase f.id } }
      | .error e t =>
        .error e { t with thread := { t.thread with preparing := t.thread.preparing.erase f.id } }
      | .crashed t =>
        .crashed { t with thread := { t.thread with preparing := t.thread.preparing.erase f.id } }
      | .blocked t => .blocked t
      | .exhausted t => .exhausted t := by
  unfold prepare
  rw [Step.run_bind]
  simp only [Step.get, Outcome.andThen, hnew, List.contains_iff_mem, hfree, hheld, if_false]
  rw [Step.run_bind]
  simp only [changeThread, Step.modify, Outcome.andThen]
  unfold guarded
  rw [Step.thenAlways_run]
  unfold onBreak Step.whenCrashed makeSignature
  rw [Step.run_bind]
  cases f.parameters.mapM (prepareParameter visit scope)
    { s with thread := { s.thread with preparing := f.id :: s.thread.preparing } } <;> rfl

end Eval

namespace Pairing

variable {T : Nat} {K : ScopeId} {engine : Engine} {s s' : State} {f f' : ScriptFunction}

/-- The function starts to be prepared. -/
theorem twinned_enter (hat : (twinned T K False).At () s.thread s s') (hidle : s.parked = [])
    (hnew : s.signatures.find? T = none) :
    (twinned T K True).At () { s.thread with preparing := T :: s.thread.preparing }
      { s with thread := { s.thread with preparing := T :: s.thread.preparing } }
      { s' with thread := { s'.thread with preparing := T :: s'.thread.preparing } } := by
  obtain ⟨hscopes, ⟨⟨-, hthread⟩, -⟩, hworld, htasks, hparked, -⟩ := hat
  cases hthread
  refine ⟨hscopes, ⟨⟨rfl, rfl⟩, fun _ => .inl List.mem_cons_self⟩, hworld, htasks, ?_,
    fun id hid _ heq => ?_⟩
  · rw [hidle] at hparked ⊢
    cases hparked
    exact .nil
  · subst heq
    rw [hnew] at hid
    cases hid

/-- The function is no longer being prepared. -/
theorem twinned_leave {r u : Thread} {t t' : State} (hr : { r with preparing := r.preparing.erase T } = u)
    (hat : (twinned T K True).At () r t t') (keep : Table Nat Signature → Table Nat Signature) :
    (twinned T K False).At () u
      { t with
        signatures := keep t.signatures
        thread := { t.thread with preparing := t.thread.preparing.erase T } }
      { t' with
        signatures := keep t'.signatures
        thread := { t'.thread with preparing := t'.thread.preparing.erase T } } := by
  obtain ⟨hscopes, ⟨⟨hthread, hthread'⟩, -⟩, hworld, htasks, hparked, -⟩ := hat
  refine ⟨hscopes, ⟨⟨?_, ?_⟩, False.elim⟩, hworld, htasks, ?_, fun _ _ => False.elim⟩
  · simp only [hthread, ← hr]
  · simp only [hthread', ← hr]
  · exact hparked.imp fun _ _ hjob => hjob.mono fun _ _ hf => ⟨hf.1, False.elim⟩

theorem defaults_twinned (engine : Engine) (limit : Nat) (u : Thread)
    (parameters : List ParameterNode) :
    (twinned T K True).Follows True Eq Error.Resembles () u
      (parameters.mapM (prepareParameter (visit engine limit) K))
      (parameters.mapM (prepareParameter (visit engine limit) K)) :=
  .mapM fun _ _ => (laws_twinned engine).prepareParameter (visits_twinned engine limit)
    fun _ _ _ => ⟨trivial, trivial⟩

/-- The default values of the function and its twin give the same signature, or end alike. -/
theorem prepare_twinned (engine : Engine) (limit : Nat) (hf : f.Twin f.id f')
    (hat : (twinned f.id K False).At () s.thread s s') (hidle : s.parked = [])
    (hfree : f.id ∉ s.thread.preparing) :
    (prepare (visit engine limit) K f s).Follows (twinned f.id K False).terms
      (fun a a' t t' => a = a' ∧ (twinned f.id K False).At () s.thread t t')
      (fun e e' t t' => e.Resembles e' ∧ (twinned f.id K False).At () s.thread t t')
      (fun t t' => ∃ u preparing, (twinned f.id K preparing).At () u t t')
      (prepare (visit engine limit) K f' s') := by
  have hres := hf.resembles
  have hthread : s'.thread = s.thread := hat.threads.1.2
  obtain ⟨hsignatures, hheldEq⟩ : s'.signatures = s.signatures ∧ s'.held = s.held := by
    obtain ⟨⟩ := hat
    exact ⟨rfl, rfl⟩
  have hfree' : f'.id ∉ s'.thread.preparing := by rwa [hres.id, hthread]
  cases hnew : s.signatures.find? f.id with
  | some signature =>
    rw [prepare_of_prepared hnew, prepare_of_prepared (by rwa [hsignatures, hres.id])]
    exact .ok ⟨rfl, hat⟩
  | none =>
    have hnew' : s'.signatures.find? f'.id = none := by rwa [hsignatures, hres.id]
    by_cases hheld : f.id ∈ s.held
    · rw [prepare_of_held hnew hfree hheld, prepare_of_held hnew' hfree' (by rwa [hheldEq, hres.id])]
      exact .blocked ⟨_, _, hat⟩
    · rw [prepare_run hnew hfree hheld, prepare_run hnew' hfree' (by rwa [hheldEq, hres.id]),
        hres.parameters, hres.id, hres.returns]
      have hdefaults := (defaults_twinned engine limit _ f.parameters).ends _ _
        ⟨trivial, twinned_enter hat hidle hnew⟩
      generalize f.parameters.mapM (prepareParameter (visit engine limit) K) _ = o at hdefaults
      generalize f.parameters.mapM (prepareParameter (visit engine limit) K) _ = o' at hdefaults
      have hback : { s.thread with preparing := (f.id :: s.thread.preparing).erase f.id } = s.thread := by
        simp only [List.erase_cons_head]
      cases hdefaults with
      | ok h =>
        obtain ⟨rfl, h⟩ := h
        exact .ok ⟨rfl, twinned_leave hback h (·.insert f.id _)⟩
      | error h => exact .error ⟨h.1, twinned_leave hback h.2 id⟩
      | crashed h =>
        obtain ⟨_, u, h⟩ := h
        exact .crashed ⟨_, _, twinned_leave rfl h id⟩
      | blocked h =>
        obtain ⟨_, u, h⟩ := h
        exact .blocked ⟨u, _, h⟩
      | exhausted h =>
        obtain ⟨_, u, h⟩ := h
        exact .exhausted ⟨u, _, h⟩
      | astray h => exact h.elim

end Pairing

end TreeScript
