import TreeScript.Proofs.Host
import TreeScript.Proofs.Regime.Visit
import TreeScript.Proofs.Scope.Places

/-!
# Hosts under a regime

A host may visit any node from any scope, bind what it likes and release scopes in any order. A regime that
asks nothing of this (`Regime.Lenient`) is kept by all its actions (`Regime.Laws.performWith`).
-/

namespace TreeScript

/-- Carries out an action in which nodes are visited by `visit`. -/
def Action.performWith (engine : Engine) (visit : Visit) : Action → Eval Unit
  | call scope name arguments index span => do
    let _ ← Eval.call engine visit scope name arguments index span
  | .visit scope node => do
    let _ ← visit scope node
  | run program => do
    let _ ← visit.evaluate ScopeTree.root program
  | spawn owner label callId counted work => do
    let _ ← Eval.spawn visit owner label callId counted work
  | join task => do
    let _ ← Eval.join visit task
  | settle => Eval.settle visit
  | action => action.perform engine

theorem Action.performWith_visit (engine : Engine) (action : Action) :
    action.performWith engine engine.visit = action.perform engine := by
  cases action <;> rfl

namespace Regime

/-- The regime allows at the stage `g` what a host may do. -/
structure Lenient (R : Regime) (g : R.Stage) : Prop where
  inside : ∀ scope, R.inside g scope
  node : ∀ n, R.node n
  runnable : ∀ job, R.runnable job
  error : ∀ e, R.error e
  place : ∀ span, R.place span
  change : ∀ {s u}, R.At g s → s.scopes.SamePlaces u → R.At g { s with scopes := u }
  create : ∀ {s scope inner u}, R.At g s → s.scopes.create scope = .ok (inner, u) →
    R.At g { s with scopes := u }
  release : ∀ {s scope r u}, R.At g s → s.scopes.release scope = .ok (r, u) →
    R.At g { s with scopes := u }

variable {R : Regime} {engine : Engine} {visit visit' : Visit} {g : R.Stage} {α : Type}

theorem Keeps.discard {x x' : Eval α} (hx : R.Keeps g x x') :
    R.Keeps g (do let _ ← x) (do let _ ← x') := .bind hx fun _ => .pure fun _ h => h

/-- **One action.** -/
theorem Laws.performWith (hl : R.Laws engine) (hv : R.Visits visit visit') (hg : R.Lenient g)
    (action : Action) :
    R.Keeps g (action.performWith engine visit) (action.performWith engine visit') := by
  have hchange {f : ScopeTree → Except Error ScopeTree} (hf : ∀ t u, f t = .ok u → t.SamePlaces u) :
      R.Keeps g (Eval.changeScopes f) (Eval.changeScopes f) :=
    Eval.changeScopes_ensures (fun _ _ hs hu => hg.change hs (hf _ _ hu)) fun _ e hs _ => ⟨hg.error e, hs⟩
  cases action with
  | build value => exact .discard (.update (fun _ _ _ h _ => hl.world h) fun e _ h _ => ⟨hg.error e, h⟩)
  | create scope => exact .discard (.update (fun _ _ _ h => hg.create h) fun e _ h _ => ⟨hg.error e, h⟩)
  | release scope => exact .discard (.update (fun _ _ _ h => hg.release h) fun e _ h _ => ⟨hg.error e, h⟩)
  | declare scope name constant type value =>
    have hsame {t u : ScopeTree} (h : t.declare scope name constant type value = .ok u) :
        t.SamePlaces u := by
      have hedit : t.Edit (fun _ => True) (fun _ => True) u := ScopeTree.edit_of_declare h trivial
      exact hedit.samePlaces
    exact hchange fun _ _ => hsame
  | define scope depth name constant type value =>
    exact .bind (.ofExcept (fun _ _ _ h => h) fun e _ _ h => ⟨hg.error e, h⟩) fun v =>
      hchange fun _ _ => ScopeTree.samePlaces_of_defineVariable
  | assign scope name value => exact hchange fun _ _ => ScopeTree.samePlaces_of_assignVariable
  | write scope path value => exact hl.aside.writePath scope path value
  | function scope node owner depth =>
    refine .bind (hl.makeFunction (hg.node _) owner depth (fun _ => id) fun _ _ => hl.next) fun f => ?_
    exact Step.Ensures.strengthen (hchange fun _ _ => ScopeTree.samePlaces_of_defineFunction)
      fun _ h => h.2
  | implementation scope name depth members =>
    refine .bind (hl.makeImplementation name depth (fun m _ => hg.node m) (fun _ => id)
      fun _ _ => hl.next) fun i => ?_
    exact Step.Ensures.strengthen (hchange fun _ _ => ScopeTree.samePlaces_of_defineImplementation)
      fun _ h => h.2
  | call scope name arguments index span =>
    exact .discard (hl.call hv (hg.inside _) (hg.place _) name arguments index)
  | visit scope node => exact .discard (hv g scope node (hg.inside _) (hg.node _))
  | run program => exact .discard (hv.evaluate (hg.inside _) (hg.node _))
  | markExecuted scope node => exact hchange fun _ _ => ScopeTree.samePlaces_of_markExecuted
  | clearExecuted scope node => exact hchange fun _ _ => ScopeTree.samePlaces_of_clearExecuted
  | spawn owner label callId counted work =>
    exact .discard (hl.spawn hv (hl.above (hg.inside _)) (fun _ => hg.runnable _) label)
  | join task => exact .discard (hl.join hv task)
  | settle => exact hl.settle hv
  | openGate gate => exact .modify fun _ h => hl.world h
  | pop => exact .discard hl.popFrame
  | setResult value => exact hl.setResult value
  | push | setCallId | reset => exact .modify fun _ h => hl.thread h rfl

end Regime

end TreeScript
