import GioForge.Proofs.Code.Imports

/-!
Merging sets of imports is joining lists: the packages of the first set, then those that the
second adds to them, and in the same way the symbols of each package. The order in which
things were first seen is all that tells the two parts apart. So merges can be regrouped and
repeated without a trace, and turned around where only equality of sets counts.
-/

namespace GioForge.Code.Imports

/-- The packages in order and the symbols of each say all that a set of imports holds. -/
theorem entries_eq_map_keys (imports : Imports) :
    imports.packages.entries =
      imports.packages.keys.map fun package => (package, imports.symbols package) := by
  rw [Table.keys, List.map_map]
  refine (List.map_id' _).symm.trans (List.map_congr_left fun entry hentry => ?_)
  rw [Function.comp_apply, symbols_of_mem hentry]

/-- A set of imports is its packages in order and the symbols of each in order. -/
theorem eq_of_keys_of_symbols {a b : Imports} (hkeys : a.packages.keys = b.packages.keys)
    (hsymbols : ∀ package, (a.symbols package).toList = (b.symbols package).toList) : a = b := by
  apply Imports.ext
  apply Table.ext
  rw [entries_eq_map_keys, entries_eq_map_keys, hkeys]
  refine List.map_congr_left fun package _ => ?_
  rw [OrderedSet.ext (hsymbols package)]

/-- It does not matter which two of three sets are joined first, not even for the order. -/
theorem merge_assoc (a b c : Imports) : (a.merge b).merge c = a.merge (b.merge c) := by
  apply eq_of_keys_of_symbols
  · simp only [keys_merge, joined_assoc]
  · intro package
    simp only [symbols_merge, joined_assoc]

theorem merge_self (a : Imports) : a.merge a = a := by
  apply eq_of_keys_of_symbols
  · rw [keys_merge, joined_self]
  · intro package
    rw [symbols_merge, joined_self]

/-- Joined the other way round the sets differ in their order only. -/
theorem agree_merge_comm (a b : Imports) : (a.merge b).Agree (b.merge a) where
  packages := fun package => by rw [hasPackage_merge, hasPackage_merge, or_comm]
  symbols := fun package symbol => by rw [hasSymbol_merge, hasSymbol_merge, or_comm]

theorem mem_sorted_iff (imports : Imports) (package : String) (names : OrderedSet String) :
    (package, names) ∈ imports.sorted ↔
      imports.hasPackage package = true ∧ imports.symbols package = names := by
  rw [sorted, List.mem_mergeSort, entries_eq_map_keys, hasPackage_iff]
  simp only [List.mem_map, Prod.mk.injEq]
  constructor
  · rintro ⟨_, hmem, rfl, rfl⟩
    exact ⟨hmem, rfl⟩
  · rintro ⟨hmem, rfl⟩
    exact ⟨package, hmem, rfl, rfl⟩

/-- How merges are grouped and repeated leaves no trace, not even in the order of packages and
symbols, and which part comes first cannot be seen where sets are compared. A merge has the
packages of the first part, then those that the second adds in its order, and so it is with
the symbols of a package. The packages are listed with their symbols, once each and in the
order of the bytes of their paths, and equal sets list the same packages. -/
theorem merge_joins_in_first_seen_order (a b c : Imports) :
    (a.merge b).merge c = a.merge (b.merge c) ∧
    a.merge a = a ∧
    (a.merge b).same (b.merge a) = true ∧
    (a.merge b).packages.keys =
      a.packages.keys ++ b.packages.keys.filter (fun package => !a.hasPackage package) ∧
    (∀ package, ((a.merge b).symbols package).toList = (a.symbols package).toList ++
      (b.symbols package).toList.filter fun symbol => !a.hasSymbol package symbol) ∧
    (∀ package, (a.merge b).hasPackage package = true ↔
      a.hasPackage package = true ∨ b.hasPackage package = true) ∧
    (∀ package names, (package, names) ∈ a.sorted ↔
      a.hasPackage package = true ∧ a.symbols package = names) ∧
    ((a.sorted.map Prod.fst).map Go.utf8).Pairwise (· < ·) ∧
    (a.same b = true → a.sorted.map Prod.fst = b.sorted.map Prod.fst) := by
  refine ⟨merge_assoc a b c, merge_self a, (same_iff _ _).mpr (agree_merge_comm a b), ?_, ?_,
    hasPackage_merge a b, mem_sorted_iff a, a.utf8_paths_pairwise, ?_⟩
  · rw [keys_merge]
    simp only [joined, ← hasPackage_iff, Bool.not_eq_true, Bool.decide_eq_false]
  · intro package
    rw [symbols_merge]
    simp only [joined, ← hasSymbol_iff, Bool.not_eq_true, Bool.decide_eq_false]
  · intro h
    exact ((same_iff a b).mp h).paths_eq

/-- Equal sets that were built in another order, one of them with a package without symbols
first. -/
theorem merge_joins_in_first_seen_order_turned_around :
    let a := (empty.addPackage "os").addAll "gioui.org/unit" ["Sp", "Dp"]
    let b := (empty.addAll "gioui.org/unit" ["Dp", "Sp"]).addPackage "os"
    a.same b = true ∧ a.sorted.map Prod.fst = b.sorted.map Prod.fst ∧
      (a.merge b).same (b.merge a) = true ∧
      ((a.merge b).symbols "gioui.org/unit").toList = ["Sp", "Dp"] ∧
      ((b.merge a).symbols "gioui.org/unit").toList = ["Dp", "Sp"] := by
  intro a b
  have hsame : a.same b = true := by decide +kernel
  obtain ⟨_, _, hcomm, _, _, _, _, _, hsorted⟩ := merge_joins_in_first_seen_order a b empty
  exact ⟨hsame, hsorted hsame, hcomm, by decide +kernel, by decide +kernel⟩

end GioForge.Code.Imports
