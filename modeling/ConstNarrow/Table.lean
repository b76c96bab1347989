/-
**Tables**: finite maps from numbers to values, with at most one entry for a number. What a table
holds is said by `get?`, and `get?_insert` and `get?_filterMap` say what the operations do to it.
-/

set_option autoImplicit false

namespace ConstNarrow

/-- A finite map from numbers. -/
structure Table (α : Type) where
  entries : List (Nat × α)
  /-- no number has two entries -/
  nodup : (entries.map Prod.fst).Nodup

namespace Table

variable {α β : Type}

/-- The table without entries. -/
def empty : Table α := ⟨[], List.nodup_nil⟩

/-- The entry of a number. -/
def get? (t : Table α) (key : Nat) : Option α := t.entries.lookup key

/-- Whether a number has an entry. -/
def contains (t : Table α) (key : Nat) : Bool := (t.get? key).isSome

/-- No number has two entries after an insertion. -/
theorem nodup_insert {entries : List (Nat × α)} (h : (entries.map Prod.fst).Nodup) (key : Nat)
    (value : α) : (((key, value) :: entries.filter (·.1 != key)).map Prod.fst).Nodup := by
  refine List.nodup_cons.mpr ⟨fun hmem => ?_, h.sublist (List.filter_sublist.map _)⟩
  obtain ⟨entry, hentry, heq⟩ := List.mem_map.mp hmem
  have hne := (List.mem_filter.mp hentry).2
  simp [heq] at hne

/-- Puts a value under a number, in place of the one that may be there. -/
def insert (t : Table α) (key : Nat) (value : α) : Table α :=
  ⟨(key, value) :: t.entries.filter (·.1 != key), nodup_insert t.nodup key value⟩

theorem map_fst_filterMap_sublist (f : α → Option β) (entries : List (Nat × α)) :
    ((entries.filterMap fun entry => (f entry.2).map (entry.1, ·)).map Prod.fst).Sublist
      (entries.map Prod.fst) := by
  induction entries with
  | nil => exact .slnil
  | cons entry entries ih =>
    cases hf : f entry.2 with
    | none =>
      rw [List.filterMap_cons_none (by simp [hf])]
      exact ih.cons _
    | some value =>
      rw [List.filterMap_cons_some (b := (entry.1, value)) (by simp [hf])]
      exact ih.cons_cons _

/-- Keeps the entries that `f` has a value for, and replaces theirs by it. -/
def filterMap (f : α → Option β) (t : Table α) : Table β :=
  ⟨t.entries.filterMap fun entry => (f entry.2).map (entry.1, ·),
    t.nodup.sublist (map_fst_filterMap_sublist f t.entries)⟩

@[simp] theorem get?_empty (key : Nat) : (empty : Table α).get? key = none := rfl

theorem lookup_filter_ne (entries : List (Nat × α)) {key other : Nat} (h : other ≠ key) :
    (entries.filter (·.1 != key)).lookup other = entries.lookup other := by
  induction entries with
  | nil => rfl
  | cons entry entries ih =>
    obtain ⟨k, v⟩ := entry
    by_cases hk : k = key
    · subst hk
      have ho : (other == k) = false := by simpa using h
      simp [List.lookup_cons, ho, ih]
    · by_cases ho : other = k
      · subst ho
        simp [hk]
      · have ho' : (other == k) = false := by simpa using ho
        simp [hk, List.lookup_cons, ho', ih]

/-- An insertion changes one entry and leaves all others alone. -/
theorem get?_insert (t : Table α) (key other : Nat) (value : α) :
    (t.insert key value).get? other = if other = key then some value else t.get? other := by
  by_cases h : other = key
  · simp [get?, insert, h]
  · have hb : (other == key) = false := by simpa using h
    simp [get?, insert, h, List.lookup_cons, hb, lookup_filter_ne]

@[simp] theorem get?_insert_self (t : Table α) (key : Nat) (value : α) :
    (t.insert key value).get? key = some value := by
  simp [get?_insert]

theorem lookup_eq_none_of_not_mem {entries : List (Nat × α)} {key : Nat}
    (h : key ∉ entries.map Prod.fst) : entries.lookup key = none := by
  induction entries with
  | nil => rfl
  | cons entry entries ih =>
    rw [List.map_cons, List.mem_cons, not_or] at h
    have hb : (key == entry.1) = false := by simpa using h.1
    rw [List.lookup_cons, hb]
    exact ih h.2

/-- An entry that is kept is the only one of its number, so it is found. -/
theorem lookup_filterMap (f : α → Option β) {entries : List (Nat × α)}
    (h : (entries.map Prod.fst).Nodup) (key : Nat) :
    (entries.filterMap fun entry => (f entry.2).map (entry.1, ·)).lookup key
      = (entries.lookup key).bind f := by
  induction entries with
  | nil => rfl
  | cons entry entries ih =>
    obtain ⟨k, v⟩ := entry
    rw [List.map_cons, List.nodup_cons] at h
    by_cases hk : key = k
    · subst hk
      -- an entry that is dropped leaves no other of its number behind
      have hnone := lookup_eq_none_of_not_mem
        (fun hmem => h.1 ((map_fst_filterMap_sublist f entries).subset hmem))
      cases hf : f v with
      | none => simpa [hf] using hnone
      | some value => simp [hf]
    · have hb : (key == k) = false := by simpa using hk
      cases hf : f v with
      | none => simpa [hf, List.lookup_cons, hb] using ih h.2
      | some value => simpa [hf, List.lookup_cons, hb] using ih h.2

/-- What becomes of an entry is up to the entry alone. -/
theorem get?_filterMap (f : α → Option β) (t : Table α) (key : Nat) :
    (t.filterMap f).get? key = (t.get? key).bind f :=
  lookup_filterMap f t.nodup key

end Table

end ConstNarrow
