import GioForge.Data.Table
import Mathlib.Data.List.Basic
import Mathlib.Data.List.Induction

/-!
What a table holds after a run of insertions. The value under a key is the one
written last, while the place of the key is where it was first written. Both
facts are proved by taking the pairs off the end of the list, one insertion at a
time.
-/

namespace GioForge.Table

variable {κ α : Type} [DecidableEq κ]

/-- An insertion keeps the key column, or extends it at its end. -/
theorem keys_put (key : κ) (value : α) (entries : List (κ × α)) :
    (put key value entries).map Prod.fst =
      if key ∈ entries.map Prod.fst then entries.map Prod.fst
      else entries.map Prod.fst ++ [key] := by
  induction entries with
  | nil => simp [put]
  | cons entry rest ih =>
      obtain ⟨k, v⟩ := entry
      by_cases hk : k = key
      · simp [put, hk]
      · have hne : key ≠ k := fun h => hk h.symm
        simp only [put, hk, if_false, List.map_cons, ih, List.mem_cons, hne, false_or]
        split <;> rfl

/-- A new key comes last and a known one keeps its place. -/
theorem keys_insert (table : Table κ α) (key : κ) (value : α) :
    (table.insert key value).keys =
      if key ∈ table.keys then table.keys else table.keys ++ [key] :=
  keys_put key value table.entries

/-- An insertion makes a table larger exactly if the key is new. -/
theorem size_insert (table : Table κ α) (key : κ) (value : α) :
    (table.insert key value).size = if table.contains key then table.size else table.size + 1 := by
  have hsize : ∀ t : Table κ α, t.size = t.keys.length := fun t => (List.length_map _).symm
  rw [hsize, hsize, keys_insert, apply_ite List.length, List.length_append,
    List.length_singleton]
  simp only [contains_iff_mem_keys]

/-- A table has a value under exactly the keys it lists. -/
theorem mem_keys_iff_isSome (table : Table κ α) (key : κ) :
    key ∈ table.keys ↔ (table.get? key).isSome = true := by
  obtain ⟨entries, nodup⟩ := table
  simp only [keys, get?]
  clear nodup
  induction entries with
  | nil => simp
  | cons entry rest ih =>
      obtain ⟨k, v⟩ := entry
      by_cases h : key = k
      · simp [h]
      · simp [h, List.lookup_cons, beq_eq_false_iff_ne.mpr h, ih]

/-- The entries of a table are its keys with the values under them. -/
theorem mem_entries_iff (table : Table κ α) (key : κ) (value : α) :
    (key, value) ∈ table.entries ↔ table.get? key = some value := by
  obtain ⟨entries, nodup⟩ := table
  simp only [get?]
  induction entries with
  | nil => simp
  | cons entry rest ih =>
      obtain ⟨k, v⟩ := entry
      simp only [List.map_cons, List.nodup_cons] at nodup
      by_cases h : key = k
      · subst h
        have habsent : (key, value) ∉ rest := fun hmem =>
          nodup.1 (List.mem_map.mpr ⟨(key, value), hmem, rfl⟩)
        simp [habsent, eq_comm]
      · simp [h, List.lookup_cons, beq_eq_false_iff_ne.mpr h, ih nodup.2]

theorem ofList_concat (pairs : List (κ × α)) (pair : κ × α) :
    ofList (pairs ++ [pair]) = (ofList pairs).insert pair.1 pair.2 := by
  simp [ofList, List.foldl_append]

/-- Of several values written to one key the last stays. -/
theorem get?_ofList (pairs : List (κ × α)) (key : κ) :
    (ofList pairs).get? key =
      (pairs.filter fun pair => pair.1 = key).getLast?.map Prod.snd := by
  induction pairs using List.reverseRecOn with
  | nil => rfl
  | append_singleton pairs pair ih =>
      rw [ofList_concat, get?_insert, ih, List.filter_append]
      by_cases h : key = pair.1
      · simp [h]
      · have hne : ¬ pair.1 = key := fun heq => h heq.symm
        simp [h, hne]

/-- A table made from pairs has exactly the keys of the pairs. -/
theorem mem_keys_ofList (pairs : List (κ × α)) (key : κ) :
    key ∈ (ofList pairs).keys ↔ key ∈ pairs.map Prod.fst := by
  induction pairs using List.reverseRecOn with
  | nil => simp [ofList, keys, empty]
  | append_singleton pairs pair ih =>
      rw [ofList_concat, mem_keys_insert, ih]
      simp [or_comm]

/-- Keys stand in the order of their first insertion. -/
theorem keys_ofList_pairwise (pairs : List (κ × α)) :
    (ofList pairs).keys.Pairwise fun a b =>
      (pairs.map Prod.fst).idxOf a < (pairs.map Prod.fst).idxOf b := by
  induction pairs using List.reverseRecOn with
  | nil => exact List.Pairwise.nil
  | append_singleton pairs pair ih =>
      have hold : ∀ a ∈ (ofList pairs).keys,
          ((pairs ++ [pair]).map Prod.fst).idxOf a = (pairs.map Prod.fst).idxOf a := by
        intro a ha
        rw [List.map_append]
        exact List.idxOf_append_of_mem ((mem_keys_ofList pairs a).mp ha)
      have hkept : (ofList pairs).keys.Pairwise fun a b =>
          ((pairs ++ [pair]).map Prod.fst).idxOf a <
            ((pairs ++ [pair]).map Prod.fst).idxOf b := by
        refine ih.imp_of_mem ?_
        intro a b ha hb hlt
        rw [hold a ha, hold b hb]
        exact hlt
      rw [ofList_concat, keys_insert]
      split
      · exact hkept
      · next hnew =>
          refine List.pairwise_append.mpr ⟨hkept, List.pairwise_singleton _ _, ?_⟩
          intro a ha b hb
          rw [List.mem_singleton.mp hb, hold a ha, List.map_append,
            List.idxOf_append_of_notMem (fun h => hnew ((mem_keys_ofList pairs _).mpr h))]
          have hlt := List.idxOf_lt_length_of_mem ((mem_keys_ofList pairs a).mp ha)
          omega

/-- A new key goes to the end. -/
theorem put_of_notMem {key : κ} {entries : List (κ × α)} (h : key ∉ entries.map Prod.fst)
    (value : α) : put key value entries = entries ++ [(key, value)] := by
  induction entries with
  | nil => rfl
  | cons entry rest ih =>
      obtain ⟨k, v⟩ := entry
      rw [List.map_cons, List.mem_cons, not_or] at h
      rw [put, if_neg (Ne.symm h.1), ih h.2]
      rfl

theorem entries_ofList {pairs : List (κ × α)} (h : (pairs.map Prod.fst).Nodup) :
    (ofList pairs).entries = pairs := by
  induction pairs using List.reverseRecOn with
  | nil => rfl
  | append_singleton pairs pair ih =>
      rw [List.map_append, List.nodup_append] at h
      obtain ⟨hpairs, _, hdisjoint⟩ := h
      have hnew : pair.1 ∉ pairs.map Prod.fst := fun hmem =>
        hdisjoint _ hmem _ (List.mem_singleton_self _) rfl
      rw [ofList_concat]
      change put pair.1 pair.2 (ofList pairs).entries = pairs ++ [pair]
      rw [ih hpairs, put_of_notMem hnew]

/-- A table is made from its entries. -/
theorem ofList_entries (table : Table κ α) : ofList table.entries = table :=
  Table.ext (entries_ofList table.nodup)

/-- The keys of a table made from pairs are those of the pairs, each once and in the order of
its first appearance. -/
theorem keys_ofList (pairs : List (κ × α)) :
    (ofList pairs).keys = (pairs.map Prod.fst).eraseDups := by
  induction pairs using List.reverseRecOn with
  | nil => rfl
  | append_singleton pairs pair ih =>
      rw [ofList_concat, keys_insert, List.map_append, List.eraseDups_append, ← ih]
      have hremoved : ([pair].map Prod.fst).removeAll (pairs.map Prod.fst) =
          if pair.1 ∈ pairs.map Prod.fst then [] else [pair.1] := by
        rw [List.map_singleton, List.removeAll, List.filter_cons]
        by_cases h : pair.1 ∈ pairs.map Prod.fst
        · simp only [List.elem_eq_mem, h, decide_true, Bool.not_true, if_true]
          rfl
        · simp only [List.elem_eq_mem, h, decide_false, Bool.not_false, if_true, if_false]
          rfl
      rw [hremoved]
      simp only [mem_keys_ofList]
      split
      · exact (List.append_nil _).symm
      · rfl

end GioForge.Table
