import TreeScript.Proofs.Table
import TreeScript.State

/-!
# Registrations

Functions are registered one after the other. Under each name a registry holds the functions of that
name in the order of their registration, whatever was registered between them
(`Registry.candidates_registerAll`).

An engine takes the functions of a name from one of its registries (`Engine.Uses`).
-/

namespace TreeScript

namespace Registry

variable {r r' : Registry} {natives : List Native} {name : String}

/-- Registers functions one after the other. -/
def registerAll (natives : List Native) : Step Registry Error Unit := natives.forM register

theorem candidates_add (r : Registry) (n : Native) (name : String) :
    (r.add n).candidates name = r.candidates name ++ if n.name = name then [n] else [] := by
  unfold candidates add
  rw [Table.find?_insert]
  by_cases hname : n.name = name
  · rw [if_pos hname, if_pos hname.symm, hname]
    rfl
  · rw [if_neg hname, if_neg (Ne.symm hname), List.append_nil]

theorem candidates_foldl_add (natives : List Native) (r : Registry) (name : String) :
    (natives.foldl add r).candidates name = r.candidates name ++ natives.filter (·.name = name) := by
  induction natives generalizing r with
  | nil => exact (List.append_nil _).symm
  | cons n natives ih =>
    rw [List.foldl_cons, ih, candidates_add, List.append_assoc, List.filter_cons]
    by_cases hname : n.name = name <;> simp [hname]

/-- Functions can be registered if all their names are acceptable. -/
theorem registerAll_eq_ok_iff :
    registerAll natives r = .ok () r' ↔
      (∀ n ∈ natives, acceptsName n = true) ∧ natives.foldl add r = r' := by
  induction natives generalizing r with
  | nil => exact ⟨fun h => (by cases h; simp), fun h => h.2 ▸ rfl⟩
  | cons n natives ih =>
    have hstep : registerAll (n :: natives) r =
        (register n r).andThen fun _ r => registerAll natives r := rfl
    rw [hstep, register, List.forall_mem_cons, List.foldl_cons]
    by_cases haccepts : acceptsName n = true
    · rw [if_pos haccepts]
      exact ih.trans (and_congr_left' (by simp [haccepts]))
    · rw [if_neg haccepts]
      exact ⟨fun h => (by cases h), fun h => absurd h.1.1 haccepts⟩

/-- Under a name stand the functions that were registered by it, in their order. -/
theorem candidates_registerAll (h : registerAll natives empty = .ok () r) (name : String) :
    r.candidates name = natives.filter (·.name = name) := by
  rw [← (registerAll_eq_ok_iff.1 h).2, candidates_foldl_add]
  rfl

theorem contains_of_candidates_ne_nil (h : r.candidates name ≠ []) : r.contains name = true := by
  unfold candidates at h
  cases hfind : r.entries.find? name with
  | none =>
    rw [hfind] at h
    exact absurd rfl h
  | some found => exact Table.contains_iff.2 ⟨found, hfind⟩

end Registry

namespace Engine

variable {engine : Engine} {r : Registry} {name : String}

/-- The functions of a name are those of a registry: the one of the builtin functions, or the one of the
host if no builtin function has the name. -/
def Uses (engine : Engine) (r : Registry) (name : String) : Prop :=
  engine.builtins = r ∨ engine.host = r ∧ engine.builtins.contains name = false

theorem Uses.natives_eq (h : engine.Uses r name) (hname : r.candidates name ≠ []) :
    engine.natives name = r.candidates name := by
  unfold natives
  rcases h with rfl | ⟨rfl, hbuiltins⟩
  · rw [if_pos (Registry.contains_of_candidates_ne_nil hname)]
  · rw [hbuiltins, if_neg Bool.false_ne_true]

/-- An engine can be made if no name of the host is the name of a builtin function. -/
theorem create_eq_ok_iff {options : EngineOptions} :
    create options = .ok engine ↔ (∀ name ∈ options.host.names, engine.builtins.contains name = false) ∧
      engine = ⟨if options.withBuiltins then Native.Core.registry else .empty, options.host, options.resolver,
        options.policy, options.symbols⟩ := by
  unfold create
  dsimp only
  split
  · next name hsome =>
    have hshadowed := List.find?_some hsome
    refine ⟨fun h => (by cases h), ?_⟩
    rintro ⟨hnone, rfl⟩
    exact absurd hshadowed (Bool.eq_false_iff.1 (hnone name (List.mem_of_find?_eq_some hsome)))
  · next hnone =>
    constructor
    · intro h
      cases h
      exact ⟨fun name hname => Bool.eq_false_iff.2 (List.find?_eq_none.1 hnone name hname), rfl⟩
    · rintro ⟨-, rfl⟩
      rfl

theorem uses_host_of_create {options : EngineOptions} (h : create options = .ok engine)
    (hname : options.host.candidates name ≠ []) : engine.Uses options.host name := by
  obtain ⟨hdisjoint, hengine⟩ := create_eq_ok_iff.1 h
  have hhost : engine.host = options.host := by rw [hengine]
  have hmem : name ∈ options.host.names := Table.mem_keys.2 (Registry.contains_of_candidates_ne_nil hname)
  exact .inr ⟨hhost, hdisjoint name hmem⟩

end Engine

end TreeScript
