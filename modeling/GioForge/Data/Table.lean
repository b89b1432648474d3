/-!
Tables that remember the order in which their keys first appeared. Writing to a key that is already
there replaces its value and keeps its place. Registries, handler maps, import lists and disks are
tables.
-/

namespace GioForge

/-- Values under pairwise distinct keys, in order of first insertion. -/
@[ext]
structure Table (κ α : Type) where
  /-- The keys with their values, oldest key first. -/
  entries : List (κ × α)
  /-- No key is listed twice. -/
  nodup : (entries.map Prod.fst).Nodup

namespace Table

variable {κ α : Type} [DecidableEq κ]

def empty : Table κ α := ⟨[], List.nodup_nil⟩

instance : Inhabited (Table κ α) := ⟨⟨[], List.nodup_nil⟩⟩

/-- Puts `value` under `key` in a list of entries: in the key's place, or at the end if it is new.
-/
def put (key : κ) (value : α) : List (κ × α) → List (κ × α)
  | [] => [(key, value)]
  | (k, v) :: rest => if k = key then (key, value) :: rest else (k, v) :: put key value rest

theorem mem_keys_put (key : κ) (value : α) (entries : List (κ × α)) (k : κ) :
    k ∈ (put key value entries).map Prod.fst ↔ k = key ∨ k ∈ entries.map Prod.fst := by
  induction entries with
  | nil => simp [put]
  | cons entry rest ih =>
      obtain ⟨k', v⟩ := entry
      by_cases h : k' = key
      · simp [put, h]
      · simp only [put, h, if_false, List.map_cons, List.mem_cons, ih]
        constructor
        · rintro (h | h | h) <;> simp [h]
        · rintro (h | h | h) <;> simp [h]

theorem nodup_keys_put (key : κ) (value : α) (entries : List (κ × α))
    (h : (entries.map Prod.fst).Nodup) : ((put key value entries).map Prod.fst).Nodup := by
  induction entries with
  | nil => simp [put]
  | cons entry rest ih =>
      obtain ⟨k', v⟩ := entry
      simp only [List.map_cons, List.nodup_cons] at h
      by_cases hk : k' = key
      · simp only [put, hk, if_true, List.map_cons, List.nodup_cons]
        exact ⟨hk ▸ h.1, h.2⟩
      · simp only [put, hk, if_false, List.map_cons, List.nodup_cons]
        refine ⟨fun hmem => ?_, ih h.2⟩
        rcases (mem_keys_put key value rest k').1 hmem with heq | hin
        · exact hk heq
        · exact h.1 hin

/-- Under the key that was put the new value is found, under any other what was there. -/
theorem lookup_put (key : κ) (value : α) (entries : List (κ × α)) (k : κ) :
    (put key value entries).lookup k = if k = key then some value else entries.lookup k := by
  induction entries with
  | nil =>
      by_cases h : k = key
      · simp [put, h]
      · simp [put, h, List.lookup_cons, beq_eq_false_iff_ne.mpr h]
  | cons entry rest ih =>
      obtain ⟨k', v⟩ := entry
      by_cases hk : k' = key
      · subst hk
        by_cases h : k = k'
        · simp [put, h]
        · simp [put, h, List.lookup_cons, beq_eq_false_iff_ne.mpr h]
      · by_cases h : k = k'
        · subst h
          simp [put, hk]
        · simp [put, hk, List.lookup_cons, beq_eq_false_iff_ne.mpr h, ih]

/-- The table with `value` under `key`. -/
def insert (table : Table κ α) (key : κ) (value : α) : Table κ α :=
  ⟨put key value table.entries, nodup_keys_put key value table.entries table.nodup⟩

/-- The table without `key`. -/
def erase (table : Table κ α) (key : κ) : Table κ α :=
  ⟨table.entries.filter fun entry => entry.1 ≠ key,
    table.nodup.sublist (List.filter_sublist.map Prod.fst)⟩

/-- The value under `key`, if there is one. -/
def get? (table : Table κ α) (key : κ) : Option α :=
  table.entries.lookup key

def contains (table : Table κ α) (key : κ) : Bool :=
  table.entries.any fun entry => entry.1 = key

def keys (table : Table κ α) : List κ :=
  table.entries.map Prod.fst

def size (table : Table κ α) : Nat :=
  table.entries.length

def isEmpty (table : Table κ α) : Bool :=
  table.entries.isEmpty

/-- The table that results from inserting the pairs one after the other. -/
def ofList (pairs : List (κ × α)) : Table κ α :=
  pairs.foldl (fun table pair => table.insert pair.1 pair.2) empty

theorem get?_empty (key : κ) : (empty : Table κ α).get? key = none := rfl

/-- Inserting changes what is under one key. -/
theorem get?_insert (table : Table κ α) (key : κ) (value : α) (k : κ) :
    (table.insert key value).get? k = if k = key then some value else table.get? k :=
  lookup_put key value table.entries k

/-- Inserting adds one key and takes none away. -/
theorem mem_keys_insert (table : Table κ α) (key : κ) (value : α) (k : κ) :
    k ∈ (table.insert key value).keys ↔ k = key ∨ k ∈ table.keys :=
  mem_keys_put key value table.entries k

/-- A table has exactly the keys it lists. -/
theorem contains_iff_mem_keys (table : Table κ α) (key : κ) :
    table.contains key = true ↔ key ∈ table.keys := by
  simp [contains, keys]

end Table

end GioForge
