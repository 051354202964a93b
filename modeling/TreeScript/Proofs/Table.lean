import TreeScript.Table

/-!
# Entries and keys of tables

What a table answers and what it lists are the same: `Table.mem_entries`, `Table.mem_keys`. A
`KeySet` is known by the keys it contains, so each of its operations has one lemma that says which
keys the result contains.
-/

namespace TreeScript

namespace Table

section Basic

variable {κ α : Type} [Ord κ] [DecidableEq κ]

theorem contains_iff {t : Table κ α} {key : κ} : t.contains key ↔ ∃ a, t.find? key = some a := by
  rw [contains, Option.isSome_iff_exists]

theorem contains_eq_false {t : Table κ α} {key : κ} :
    t.contains key = false ↔ t.find? key = none := by
  rw [contains, Option.isSome_eq_false_iff, Option.isNone_iff_eq_none]

theorem not_contains_of_isEmpty {t : Table κ α} (h : t.isEmpty) (key : κ) : ¬ t.contains key := by
  rw [contains_iff, find?, List.isEmpty_iff.1 h]
  rintro ⟨a, ha⟩
  cases ha

@[simp] theorem find?_map {β : Type} (t : Table κ α) (f : κ → α → β) (key : κ) :
    (t.map f).find? key = (t.find? key).map (f key) := by
  obtain ⟨l, hl⟩ := t
  simp only [map, find?]
  clear hl
  induction l with
  | nil => rfl
  | cons p rest ih =>
    obtain ⟨k, a⟩ := p
    by_cases h : key = k
    · subst h; simp [lookup]
    · simp [lookup, h, ih]

omit [Ord κ] in
theorem mem_of_lookup {key : κ} {a : α} {l : List (κ × α)} (h : lookup key l = some a) :
    (key, a) ∈ l := by
  induction l with
  | nil => simp [lookup] at h
  | cons p rest ih =>
    obtain ⟨k, b⟩ := p
    simp only [lookup] at h
    split at h
    · rename_i hk
      cases h
      subst hk
      exact List.mem_cons_self
    · exact List.mem_cons_of_mem _ (ih h)

end Basic

section Ordered

variable {κ α : Type} [Ord κ] [Std.TransOrd κ] [DecidableEq κ]

omit [Ord κ] [Std.TransOrd κ] in
theorem lookup_of_mem {key : κ} {a : α} {l : List (κ × α)}
    (hl : l.Pairwise fun a b => a.1 ≠ b.1) (h : (key, a) ∈ l) : lookup key l = some a := by
  induction l with
  | nil => cases h
  | cons p rest ih =>
    obtain ⟨hp, hr⟩ := List.pairwise_cons.1 hl
    rcases List.mem_cons.1 h with rfl | h
    · simp [lookup]
    · have hne : key ≠ p.1 := fun he => hp _ h he.symm
      rw [lookup, if_neg hne]
      exact ih hr h

omit [Ord κ] [Std.TransOrd κ] in
theorem lookup_reverse {l : List (κ × α)} (hl : l.Pairwise fun a b => a.1 ≠ b.1) (key : κ) :
    lookup key l.reverse = lookup key l := by
  have hr : l.reverse.Pairwise fun a b => a.1 ≠ b.1 :=
    List.pairwise_reverse.2 (hl.imp fun h => h.symm)
  cases h : lookup key l with
  | some a => exact lookup_of_mem hr (List.mem_reverse.2 (mem_of_lookup h))
  | none =>
    cases h' : lookup key l.reverse with
    | none => rfl
    | some a =>
      have := lookup_of_mem hl (List.mem_reverse.1 (mem_of_lookup h'))
      rw [h] at this
      cases this

/-- A table lists exactly what it answers. -/
theorem mem_entries {t : Table κ α} {key : κ} {a : α} :
    (key, a) ∈ t.entries ↔ t.find? key = some a :=
  ⟨lookup_of_mem t.distinct, mem_of_lookup⟩

theorem mem_keys {t : Table κ α} {key : κ} : key ∈ t.keys ↔ t.contains key := by
  rw [contains_iff, keys, List.mem_map]
  constructor
  · rintro ⟨⟨k, a⟩, hm, rfl⟩
    exact ⟨a, mem_entries.1 hm⟩
  · rintro ⟨a, ha⟩
    exact ⟨(key, a), mem_entries.2 ha, rfl⟩

omit [DecidableEq κ] in
theorem nodup_keys (t : Table κ α) : t.keys.Nodup := List.pairwise_map.2 t.distinct

theorem contains_erase {t : Table κ α} {key key' : κ} :
    (t.erase key).contains key' ↔ key ≠ key' ∧ t.contains key' := by
  rw [contains, contains, find?_erase]
  by_cases h : key = key' <;> simp [h]

variable [Std.LawfulEqOrd κ]

/-- A table takes over nothing where all entries of the other one are left out. -/
theorem merge_filter_eq_self (t : Table κ α) {other : Table κ α} {keep : κ → α → Bool}
    (h : ∀ e ∈ other.entries, keep e.1 e.2 = false) : t.merge (other.filter keep) = t := by
  refine ext_find? fun key => ?_
  rw [find?_merge, find?_filter]
  cases ha : other.find? key with
  | none => exact Option.or_none
  | some a =>
    rw [Option.filter_some, h (key, a) (mem_entries.2 ha)]
    exact Option.or_none

/-- The keys with a value. -/
def keySet (t : Table κ α) : KeySet κ := t.map fun _ _ => ()

omit [Std.LawfulEqOrd κ] [Std.TransOrd κ] in
theorem find?_keySet (t : Table κ α) (key : κ) : t.keySet.find? key = (t.find? key).map fun _ => () :=
  find?_map t _ key

/-- A key with a value keeps one when it gets another. -/
theorem keySet_insert {t : Table κ α} {key : κ} {a : α} (h : t.find? key = some a) (b : α) :
    (t.insert key b).keySet = t.keySet := by
  refine ext_find? fun key' => ?_
  rw [find?_keySet, find?_keySet, find?_insert]
  split
  · next heq =>
    rw [heq, h]
    rfl
  · rfl

end Ordered

end Table

namespace KeySet

variable {κ : Type} [Ord κ] [Std.TransOrd κ] [Std.LawfulEqOrd κ] [DecidableEq κ]

omit [Std.LawfulEqOrd κ] in
theorem ext_contains {s s' : KeySet κ} (h : ∀ key, s.contains key ↔ s'.contains key) : s = s' := by
  refine Table.ext_find? fun key => ?_
  have hk := h key
  rw [Table.contains_iff, Table.contains_iff] at hk
  cases hs : s.find? key with
  | none =>
    cases hs' : s'.find? key with
    | none => rfl
    | some u => simp [hs, hs'] at hk
  | some u =>
    cases hs' : s'.find? key with
    | none => simp [hs, hs'] at hk
    | some u' => rfl

theorem contains_add {s : KeySet κ} {key key' : κ} :
    (add s key).contains key' ↔ key' = key ∨ s.contains key' := by
  rw [add, Table.contains, Table.contains, Table.find?_insert]
  by_cases h : key' = key <;> simp [h]

theorem contains_union {s other : KeySet κ} {key : κ} :
    (union s other).contains key ↔ s.contains key ∨ other.contains key := by
  rw [union, Table.contains, Table.contains, Table.contains, Table.find?_merge, Option.isSome_or,
    Bool.or_eq_true]

omit [Std.LawfulEqOrd κ] in
theorem contains_removeAll {s : KeySet κ} {l : List κ} {key : κ} :
    (removeAll s l).contains key ↔ s.contains key ∧ key ∉ l := by
  rw [removeAll, Table.contains, Table.contains, Table.find?_filter]
  cases s.find? key with
  | none => simp
  | some u => by_cases h : key ∈ l <;> simp [Option.filter, h]

omit [Std.TransOrd κ] [Std.LawfulEqOrd κ] in
theorem not_contains_empty (key : κ) : ¬ (∅ : KeySet κ).contains key := by
  show ¬ (Table.contains Table.empty key = true)
  rw [Table.contains, Table.find?_empty]
  simp

end KeySet

end TreeScript
