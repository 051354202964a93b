/-!
# Finite tables

`Table κ α` is a finite map from keys to values, kept as a list in strictly ascending key order.
The order is part of the type, so a table has one representation: two tables that answer every
look-up alike are equal (`Table.ext_find?`), and `entries` enumerates a table in key order.

A `KeySet κ` is a table without values.
-/

namespace TreeScript

/-- A finite map whose entries are listed in strictly ascending key order. -/
structure Table (κ : Type) (α : Type) [Ord κ] where
  /-- The entries in key order. -/
  entries : List (κ × α)
  /-- Every key is below all later ones. -/
  sorted : entries.Pairwise fun a b => compare a.1 b.1 = .lt

namespace Table

section Basic

variable {κ α : Type} [Ord κ]

instance [DecidableEq κ] [DecidableEq α] : DecidableEq (Table κ α)
  | ⟨as, _⟩, ⟨bs, _⟩ => if h : as = bs then isTrue (by subst h; rfl) else isFalse (by simp [h])

/-- The table without entries. -/
def empty : Table κ α := ⟨[], .nil⟩

instance : EmptyCollection (Table κ α) := ⟨empty⟩

instance : Inhabited (Table κ α) := ⟨empty⟩

/-- The keys in ascending order. -/
def keys (t : Table κ α) : List κ := t.entries.map (·.1)

/-- The values in ascending order of their keys. -/
def values (t : Table κ α) : List α := t.entries.map (·.2)

/-- The number of entries. -/
def size (t : Table κ α) : Nat := t.entries.length

/-- Whether there is no entry. -/
def isEmpty (t : Table κ α) : Bool := t.entries.isEmpty

/-- The entries that `keep` accepts. -/
def filter (keep : κ → α → Bool) (t : Table κ α) : Table κ α :=
  ⟨t.entries.filter fun e => keep e.1 e.2, t.sorted.filter _⟩

/-- Replaces every value by a function of its key and itself. -/
def map {β : Type} (f : κ → α → β) (t : Table κ α) : Table κ β :=
  ⟨t.entries.map fun e => (e.1, f e.1 e.2), by simpa [List.pairwise_map] using t.sorted⟩

variable [DecidableEq κ]

/-- The value under `key` in a list of entries. -/
def lookup (key : κ) : List (κ × α) → Option α
  | [] => none
  | (k, a) :: rest => if key = k then some a else lookup key rest

/-- The value stored under `key`. -/
def find? (t : Table κ α) (key : κ) : Option α := lookup key t.entries

/-- Whether `key` has a value. -/
def contains (t : Table κ α) (key : κ) : Bool := (t.find? key).isSome

/-- Removes the entry under `key`. -/
def erase (t : Table κ α) (key : κ) : Table κ α := t.filter fun k _ => key ≠ k

/-- Applies `f` to the value under `key`, if there is one. -/
def modify (t : Table κ α) (key : κ) (f : α → α) : Table κ α :=
  t.map fun k a => if key = k then f a else a

@[simp] theorem find?_empty (key : κ) : (empty : Table κ α).find? key = none := rfl

omit [Ord κ] in
theorem lookup_filter (keep : κ → α → Bool) (key : κ) {l : List (κ × α)}
    (h : l.Pairwise fun a b => a.1 ≠ b.1) :
    lookup key (l.filter fun e => keep e.1 e.2) = (lookup key l).filter (keep key) := by
  induction l with
  | nil => rfl
  | cons p rest ih =>
    obtain ⟨k, b⟩ := p
    obtain ⟨hk, hr⟩ := List.pairwise_cons.1 h
    by_cases hkey : key = k
    · subst hkey
      have hrest : lookup key rest = none := by
        clear ih h hr
        induction rest with
        | nil => rfl
        | cons q rest ih =>
          have hq := hk q (by simp)
          simp only [lookup, hq, if_false]
          exact ih fun e he => hk e (List.mem_cons_of_mem _ he)
      by_cases hb : keep key b <;> simp [lookup, hb, ih hr, hrest, Option.filter]
    · by_cases hb : keep k b <;> simp [lookup, hkey, hb, ih hr]

@[simp] theorem find?_modify (t : Table κ α) (key key' : κ) (f : α → α) :
    (t.modify key f).find? key' = if key = key' then (t.find? key').map f else t.find? key' := by
  obtain ⟨l, hl⟩ := t
  simp only [modify, map, find?]
  clear hl
  induction l with
  | nil => simp [lookup]
  | cons p rest ih =>
    obtain ⟨k, b⟩ := p
    by_cases h : key' = k
    · subst h
      by_cases hk : key = key' <;> simp [lookup, hk]
    · simp [lookup, h, ih]

end Basic

section Ordered

variable {κ α : Type} [Ord κ]

/-- Stores `a` under `key`, keeping the order; an entry under the same key is replaced. -/
def put (key : κ) (a : α) : List (κ × α) → List (κ × α)
  | [] => [(key, a)]
  | (k, b) :: rest =>
    match compare key k with
    | .lt => (key, a) :: (k, b) :: rest
    | .eq => (key, a) :: rest
    | .gt => (k, b) :: put key a rest

theorem mem_put {key : κ} {a : α} {l : List (κ × α)} {e : κ × α} (h : e ∈ put key a l) :
    e = (key, a) ∨ e ∈ l := by
  induction l with
  | nil => simpa [put] using h
  | cons p rest ih =>
    obtain ⟨k, b⟩ := p
    simp only [put] at h
    split at h
    · simpa using h
    · rcases List.mem_cons.1 h with h | h
      · exact .inl h
      · exact .inr (List.mem_cons_of_mem _ h)
    · rcases List.mem_cons.1 h with h | h
      · exact .inr (by simp [h])
      · rcases ih h with h | h
        · exact .inl h
        · exact .inr (List.mem_cons_of_mem _ h)

variable [Std.TransOrd κ] [Std.LawfulEqOrd κ]

theorem sorted_put {key : κ} {a : α} {l : List (κ × α)}
    (h : l.Pairwise fun a b => compare a.1 b.1 = .lt) :
    (put key a l).Pairwise fun a b => compare a.1 b.1 = .lt := by
  induction l with
  | nil => simp [put]
  | cons p rest ih =>
    obtain ⟨k, b⟩ := p
    obtain ⟨hk, hr⟩ := List.pairwise_cons.1 h
    simp only [put]
    split
    · rename_i hc
      refine List.pairwise_cons.2 ⟨fun e he => ?_, h⟩
      rcases List.mem_cons.1 he with he | he
      · subst he; exact hc
      · exact Std.TransCmp.lt_trans hc (hk e he)
    · rename_i hc
      have hkey : key = k := Std.LawfulEqCmp.eq_of_compare hc
      subst hkey
      exact List.pairwise_cons.2 ⟨hk, hr⟩
    · rename_i hc
      refine List.pairwise_cons.2 ⟨fun e he => ?_, ih hr⟩
      rcases mem_put he with he | he
      · subst he; exact Std.OrientedCmp.lt_of_gt hc
      · exact hk e he

/-- Stores `a` under `key`, in place of what stood there. -/
def insert (t : Table κ α) (key : κ) (a : α) : Table κ α :=
  ⟨put key a t.entries, sorted_put t.sorted⟩

/-- Stores the entries of a list one after the other: the last of equal keys wins. -/
def insertAll (t : Table κ α) (l : List (κ × α)) : Table κ α :=
  l.foldl (fun t e => t.insert e.1 e.2) t

/-- The table of a list of entries: the last of equal keys wins. -/
def ofList (l : List (κ × α)) : Table κ α := insertAll empty l

omit [Std.LawfulEqOrd κ] in
theorem ne_of_compare_lt {a b : κ} (h : compare a b = .lt) : a ≠ b := by
  intro he; subst he; simp at h

omit [Std.LawfulEqOrd κ] in
/-- The keys of a table are pairwise different. -/
theorem distinct (t : Table κ α) : t.entries.Pairwise fun a b => a.1 ≠ b.1 :=
  t.sorted.imp ne_of_compare_lt

variable [DecidableEq κ]

/-- Stores `a` under `key` unless the key has a value already. -/
def insertNew (t : Table κ α) (key : κ) (a : α) : Table κ α :=
  if t.contains key then t else t.insert key a

theorem lookup_put (key key' : κ) (a : α) (l : List (κ × α)) :
    lookup key' (put key a l) = if key' = key then some a else lookup key' l := by
  induction l with
  | nil => simp [put, lookup]
  | cons p rest ih =>
    obtain ⟨k, b⟩ := p
    simp only [put]
    split
    · simp [lookup]
    · rename_i hc
      have hkey : key = k := Std.LawfulEqCmp.eq_of_compare hc
      subst hkey
      by_cases h : key' = key <;> simp [lookup, h]
    · rename_i hc
      have hne : k ≠ key := ne_of_compare_lt (Std.OrientedCmp.lt_of_gt hc)
      by_cases h : key' = k
      · subst h; simp [lookup, hne]
      · simp [lookup, h, ih]

@[simp] theorem find?_insert (t : Table κ α) (key key' : κ) (a : α) :
    (t.insert key a).find? key' = if key' = key then some a else t.find? key' :=
  lookup_put key key' a t.entries

/-- Stores the entries of another table under the keys that have no value yet. -/
def merge (t other : Table κ α) : Table κ α :=
  other.entries.foldl (fun t e => t.insertNew e.1 e.2) t

@[simp] theorem find?_insertNew (t : Table κ α) (key key' : κ) (a : α) :
    (t.insertNew key a).find? key' = (t.find? key').or (if key' = key then some a else none) := by
  by_cases hk : t.contains key
  · by_cases h : key' = key
    · subst h
      rw [insertNew, if_pos hk]
      obtain ⟨b, hb⟩ := Option.isSome_iff_exists.mp hk
      simp [hb]
    · simp [insertNew, hk, h]
  · by_cases h : key' = key
    · subst h
      have hn : t.find? key' = none := by simpa [contains] using hk
      simp [insertNew, hk, hn]
    · simp [insertNew, hk, h]

theorem find?_foldl_insertNew (l : List (κ × α)) (t : Table κ α) (key : κ) :
    (l.foldl (fun t e => t.insertNew e.1 e.2) t).find? key = (t.find? key).or (lookup key l) := by
  induction l generalizing t with
  | nil => simp [lookup]
  | cons e rest ih =>
    rw [List.foldl_cons, ih, find?_insertNew, Option.or_assoc, lookup]
    by_cases h : key = e.1 <;> simp [h]

/-- A merged table answers as the first table does, and as the second where the first does not. -/
@[simp] theorem find?_merge (t other : Table κ α) (key : κ) :
    (t.merge other).find? key = (t.find? key).or (other.find? key) :=
  find?_foldl_insertNew other.entries t key

omit [Std.LawfulEqOrd κ] in
@[simp] theorem find?_filter (t : Table κ α) (keep : κ → α → Bool) (key : κ) :
    (t.filter keep).find? key = (t.find? key).filter (keep key) :=
  lookup_filter keep key t.distinct

omit [Std.LawfulEqOrd κ] in
@[simp] theorem find?_erase (t : Table κ α) (key key' : κ) :
    (t.erase key).find? key' = if key = key' then none else t.find? key' := by
  rw [erase, find?_filter]
  by_cases h : key = key' <;> cases t.find? key' <;> simp [h, Option.filter]

omit [Std.LawfulEqOrd κ] in
theorem lookup_eq_none_of_lt {key : κ} {l : List (κ × α)}
    (h : ∀ e ∈ l, compare key e.1 = .lt) : lookup key l = none := by
  induction l with
  | nil => rfl
  | cons p rest ih =>
    have hp := h p (by simp)
    have hne : key ≠ p.1 := ne_of_compare_lt hp
    simp only [lookup, hne, if_false]
    exact ih fun e he => h e (List.mem_cons_of_mem _ he)

omit [Std.LawfulEqOrd κ] in
theorem entries_ext {l l' : List (κ × α)} (hl : l.Pairwise fun a b => compare a.1 b.1 = .lt)
    (hl' : l'.Pairwise fun a b => compare a.1 b.1 = .lt)
    (h : ∀ key, lookup key l = lookup key l') : l = l' := by
  induction l generalizing l' with
  | nil =>
    cases l' with
    | nil => rfl
    | cons p rest => have := h p.1; simp [lookup] at this
  | cons p rest ih =>
    obtain ⟨k, a⟩ := p
    obtain ⟨hk, hr⟩ := List.pairwise_cons.1 hl
    cases l' with
    | nil => have := h k; simp [lookup] at this
    | cons q rest' =>
      obtain ⟨k', a'⟩ := q
      obtain ⟨hk', hr'⟩ := List.pairwise_cons.1 hl'
      -- The least keys agree: a least key below the other one would be missing there.
      have hkey : k = k' := by
        apply Decidable.byContradiction
        intro hne
        have hin : lookup k rest' = some a := by have := h k; simp_all [lookup]
        have hin' : lookup k' rest = some a' := by
          have := h k'; rw [lookup, lookup, if_neg (Ne.symm hne)] at this; simpa using this
        have hlt : compare k' k = .lt := by
          apply Decidable.byContradiction
          intro hn
          have hnone : lookup k rest' = none := lookup_eq_none_of_lt fun e he => by
            cases hc : compare k k' with
            | lt => exact Std.TransCmp.lt_trans hc (hk' e he)
            | eq => exact Std.TransCmp.lt_of_eq_of_lt hc (hk' e he)
            | gt => exact absurd (Std.OrientedCmp.lt_of_gt hc) hn
          rw [hnone] at hin; simp at hin
        have hnone : lookup k' rest = none :=
          lookup_eq_none_of_lt fun e he => Std.TransCmp.lt_trans hlt (hk e he)
        rw [hnone] at hin'; simp at hin'
      subst hkey
      have ha : a = a' := by have := h k; simpa [lookup] using this
      subst ha
      congr 1
      refine ih hr hr' fun key => ?_
      by_cases hkey : key = k
      · subst hkey
        rw [lookup_eq_none_of_lt hk, lookup_eq_none_of_lt hk']
      · have := h key; simpa [lookup, hkey] using this

omit [Std.LawfulEqOrd κ] in
/-- **Tables are extensional**: equal look-ups make equal tables. -/
theorem ext_find? {t t' : Table κ α} (h : ∀ key, t.find? key = t'.find? key) : t = t' := by
  have := entries_ext t.sorted t'.sorted h
  cases t; cases t'; simp_all

end Ordered

end Table

/-- A finite set of keys. -/
abbrev KeySet (κ : Type) [Ord κ] := Table κ Unit

namespace KeySet

variable {κ : Type} [Ord κ]

/-- Removes the keys that occur in a list. -/
def removeAll [BEq κ] (s : KeySet κ) (l : List κ) : KeySet κ :=
  Table.filter (fun key _ => !l.contains key) s

variable [Std.TransOrd κ] [Std.LawfulEqOrd κ]

/-- Adds a key. -/
def add (s : KeySet κ) (key : κ) : KeySet κ := Table.insert s key ()

/-- Adds every key of `other`. -/
def union [DecidableEq κ] (s other : KeySet κ) : KeySet κ := Table.merge s other

end KeySet

end TreeScript
