import GioForge.Code.Imports
import GioForge.Proofs.Data.OrderedSet
import GioForge.Proofs.Data.Table
import GioForge.Proofs.Text.ByteOrder
import Mathlib.Data.List.Sort
import Mathlib.Data.String.Basic

/-!
What a set of imports holds after additions and merges, and the order in which its
packages are listed. A merge joins the packages of its two parts, and the symbols of each
package, in the order in which they were first seen. So it has exactly the packages and the
symbols of its parts, and the order of merges cannot be seen by asking for one of them.
-/

namespace GioForge.Code.Imports

theorem hasPackage_iff (imports : Imports) (package : String) :
    imports.hasPackage package = true ↔ package ∈ imports.packages.keys :=
  Table.contains_iff_mem_keys _ _

theorem hasSymbol_iff (imports : Imports) (package symbol : String) :
    imports.hasSymbol package symbol = true ↔ symbol ∈ (imports.symbols package).toList := by
  simp [hasSymbol, OrderedSet.contains]

theorem hasPackage_empty (package : String) : empty.hasPackage package = false := rfl

theorem hasSymbol_empty (package symbol : String) : empty.hasSymbol package symbol = false := rfl

theorem symbols_insert (imports : Imports) (added : String) (names : OrderedSet String)
    (package : String) :
    (Imports.mk (imports.packages.insert added names)).symbols package =
      if package = added then names else imports.symbols package := by
  unfold symbols
  rw [Table.get?_insert]
  split <;> rfl

theorem symbols_addPackage (imports : Imports) (added package : String) :
    (imports.addPackage added).symbols package = imports.symbols package := by
  rw [addPackage, symbols_insert]
  split
  · next h => rw [h]
  · rfl

/-- Only the symbols of the package that was named change. -/
theorem symbols_addAll (imports : Imports) (added : String) (names : List String)
    (package : String) :
    (imports.addAll added names).symbols package =
      if package = added then (imports.symbols package).insertAll names
      else imports.symbols package := by
  induction names generalizing imports with
  | nil => exact (ite_self _).symm
  | cons name rest ih =>
      have hrest := ih (imports.add added name)
      rw [add, symbols_insert] at hrest
      refine hrest.trans ?_
      split
      · next h =>
          rw [h]
          rfl
      · rfl

theorem keys_addPackage (imports : Imports) (added : String) :
    (imports.addPackage added).packages.keys = joined imports.packages.keys [added] :=
  (Table.keys_insert _ _ _).trans (joined_singleton _ _).symm

theorem keys_addAll {imports : Imports} {added : String} (h : added ∈ imports.packages.keys)
    (names : List String) : (imports.addAll added names).packages.keys = imports.packages.keys := by
  induction names generalizing imports with
  | nil => rfl
  | cons name rest ih =>
      have hkeys : (imports.add added name).packages.keys = imports.packages.keys :=
        (Table.keys_insert _ _ _).trans (if_pos h)
      rw [← hkeys]
      exact ih (hkeys ▸ h)

theorem hasPackage_add (imports : Imports) (added name package : String) :
    (imports.add added name).hasPackage package = true ↔
      package = added ∨ imports.hasPackage package = true := by
  rw [hasPackage_iff, hasPackage_iff]
  exact Table.mem_keys_insert _ _ _ _

theorem hasSymbol_add (imports : Imports) (added name package symbol : String) :
    (imports.add added name).hasSymbol package symbol = true ↔
      package = added ∧ symbol = name ∨ imports.hasSymbol package symbol = true := by
  rw [hasSymbol_iff, hasSymbol_iff, add, symbols_insert]
  by_cases h : package = added
  · simp [h, OrderedSet.mem_toList_insert]
  · simp [h]

theorem hasSymbol_addAll (imports : Imports) (added : String) (names : List String)
    (package symbol : String) :
    (imports.addAll added names).hasSymbol package symbol = true ↔
      package = added ∧ symbol ∈ names ∨ imports.hasSymbol package symbol = true := by
  rw [hasSymbol_iff, hasSymbol_iff, symbols_addAll]
  by_cases h : package = added
  · simp [h, OrderedSet.mem_toList_insertAll, or_comm]
  · simp [h]

def absorb (imports : Imports) (entry : String × OrderedSet String) : Imports :=
  (imports.addPackage entry.1).addAll entry.1 entry.2.toList

theorem keys_absorb (imports : Imports) (entry : String × OrderedSet String) :
    (imports.absorb entry).packages.keys = joined imports.packages.keys [entry.1] := by
  have hkeys := keys_addPackage imports entry.1
  rw [absorb, keys_addAll, hkeys]
  rw [hkeys, mem_joined]
  exact Or.inr (List.mem_singleton_self _)

theorem symbols_absorb (imports : Imports) (entry : String × OrderedSet String)
    (package : String) :
    (imports.absorb entry).symbols package =
      if package = entry.1 then (imports.symbols package).insertAll entry.2.toList
      else imports.symbols package := by
  rw [absorb, symbols_addAll, symbols_addPackage]

/-- New packages stand behind the old ones, in the order in which they came. -/
theorem keys_foldl_absorb {entries : List (String × OrderedSet String)}
    (h : (entries.map Prod.fst).Nodup) (imports : Imports) :
    (entries.foldl absorb imports).packages.keys =
      joined imports.packages.keys (entries.map Prod.fst) := by
  induction entries generalizing imports with
  | nil => exact (joined_nil _).symm
  | cons entry rest ih =>
      obtain ⟨hentry, hrest⟩ := List.nodup_cons.mp h
      rw [List.foldl_cons, ih hrest, keys_absorb, List.map_cons, joined_cons hentry]

/-- A package gets the symbols that the other set has for it, behind its own. -/
theorem symbols_foldl_absorb {entries : List (String × OrderedSet String)}
    (h : (entries.map Prod.fst).Nodup) (imports : Imports) (package : String) :
    (entries.foldl absorb imports).symbols package =
      (imports.symbols package).insertAll ((entries.lookup package).getD .empty).toList := by
  induction entries generalizing imports with
  | nil => rfl
  | cons entry rest ih =>
      obtain ⟨hentry, hrest⟩ := List.nodup_cons.mp h
      obtain ⟨added, names⟩ := entry
      rw [List.foldl_cons, ih hrest, symbols_absorb]
      by_cases hpackage : package = added
      · subst hpackage
        -- A package has no second entry.
        have habsent : rest.lookup package = none := by
          rw [List.lookup_eq_none_iff]
          intro other hother
          rw [bne_iff_ne]
          intro heq
          exact hentry (List.mem_map.mpr ⟨other, hother, heq.symm⟩)
        rw [if_pos rfl, habsent, List.lookup_cons_self]
        rfl
      · rw [if_neg hpackage, List.lookup_cons, beq_eq_false_iff_ne.mpr hpackage]

/-- A merge has the packages of the first part, then those that the second adds. -/
theorem keys_merge (a b : Imports) :
    (a.merge b).packages.keys = joined a.packages.keys b.packages.keys :=
  keys_foldl_absorb b.packages.nodup a

/-- So it is with the symbols of each package. -/
theorem symbols_merge (a b : Imports) (package : String) :
    ((a.merge b).symbols package).toList =
      joined (a.symbols package).toList (b.symbols package).toList := by
  have hsymbols : (a.merge b).symbols package =
      (a.symbols package).insertAll (b.symbols package).toList :=
    symbols_foldl_absorb b.packages.nodup a package
  rw [hsymbols, OrderedSet.toList_insertAll _ (b.symbols package).nodup]

theorem hasPackage_merge (imports other : Imports) (package : String) :
    (imports.merge other).hasPackage package = true ↔
      imports.hasPackage package = true ∨ other.hasPackage package = true := by
  rw [hasPackage_iff, keys_merge, mem_joined, hasPackage_iff, hasPackage_iff]

theorem hasSymbol_merge (imports other : Imports) (package symbol : String) :
    (imports.merge other).hasSymbol package symbol = true ↔
      imports.hasSymbol package symbol = true ∨ other.hasSymbol package symbol = true := by
  rw [hasSymbol_iff, symbols_merge, mem_joined, hasSymbol_iff, hasSymbol_iff]

/-- What a merge has exactly if one of its parts has it, a run of merges has exactly if one of
all its parts has it. -/
theorem foldl_merge_iff {α : Type} (Has : Imports → Prop)
    (hmerge : ∀ imports other, Has (imports.merge other) ↔ Has imports ∨ Has other)
    (part : α → Imports) (parts : List α) (start : Imports) :
    Has (parts.foldl (fun all x => all.merge (part x)) start) ↔
      Has start ∨ ∃ x ∈ parts, Has (part x) := by
  induction parts generalizing start with
  | nil => simp
  | cons x rest ih =>
      rw [List.foldl_cons, ih, hmerge]
      simp [or_assoc]

/-- A symbol of many joined sets comes from the first one or from one of the parts. -/
theorem hasSymbol_foldl_merge {α : Type} (part : α → Imports) (parts : List α) (start : Imports)
    (package symbol : String) :
    (parts.foldl (fun all x => all.merge (part x)) start).hasSymbol package symbol = true ↔
      start.hasSymbol package symbol = true ∨
        ∃ x ∈ parts, (part x).hasSymbol package symbol = true :=
  foldl_merge_iff (·.hasSymbol package symbol = true)
    (fun _ _ => hasSymbol_merge _ _ _ _) part parts start

theorem hasPackage_of_hasSymbol {imports : Imports} {package symbol : String}
    (h : imports.hasSymbol package symbol = true) : imports.hasPackage package = true := by
  rw [hasSymbol_iff, symbols] at h
  rw [hasPackage_iff, Table.mem_keys_iff_isSome]
  cases hget : imports.packages.get? package with
  | none => simp [hget, OrderedSet.empty] at h
  | some names => rfl

/-- No package is imported without a symbol that is used from it. -/
def EachUsed (imports : Imports) : Prop :=
  ∀ package, imports.hasPackage package = true →
    ∃ symbol, imports.hasSymbol package symbol = true

theorem eachUsed_empty : EachUsed empty := by
  intro package h
  rw [hasPackage_empty] at h
  cases h

theorem EachUsed.add {imports : Imports} (h : imports.EachUsed) (package symbol : String) :
    (imports.add package symbol).EachUsed := by
  intro other hother
  rcases (hasPackage_add _ _ _ _).mp hother with rfl | hold
  · exact ⟨symbol, (hasSymbol_add _ _ _ _ _).mpr (Or.inl ⟨rfl, rfl⟩)⟩
  · obtain ⟨name, hname⟩ := h other hold
    exact ⟨name, (hasSymbol_add _ _ _ _ _).mpr (Or.inr hname)⟩

theorem EachUsed.addAll {imports : Imports} (h : imports.EachUsed) (package : String)
    (symbols : List String) : (imports.addAll package symbols).EachUsed := by
  induction symbols generalizing imports with
  | nil => exact h
  | cons symbol rest ih => exact ih (h.add package symbol)

theorem EachUsed.merge {imports other : Imports} (h : imports.EachUsed)
    (hother : other.EachUsed) : (imports.merge other).EachUsed := by
  intro package hpackage
  rcases (hasPackage_merge _ _ _).mp hpackage with hin | hin
  · obtain ⟨symbol, hsymbol⟩ := h package hin
    exact ⟨symbol, (hasSymbol_merge _ _ _ _).mpr (Or.inl hsymbol)⟩
  · obtain ⟨symbol, hsymbol⟩ := hother package hin
    exact ⟨symbol, (hasSymbol_merge _ _ _ _).mpr (Or.inr hsymbol)⟩

theorem EachUsed.foldl_merge {α : Type} {part : α → Imports} {parts : List α} {start : Imports}
    (hstart : start.EachUsed) (hparts : ∀ x ∈ parts, (part x).EachUsed) :
    (parts.foldl (fun all x => all.merge (part x)) start).EachUsed := by
  induction parts generalizing start with
  | nil => exact hstart
  | cons x rest ih =>
      apply ih
      · exact hstart.merge (hparts x (by simp))
      · intro y hy
        exact hparts y (by simp [hy])

def paths (imports : Imports) : List String :=
  imports.sorted.map Prod.fst

theorem mem_paths (imports : Imports) (package : String) :
    package ∈ imports.paths ↔ imports.hasPackage package = true := by
  rw [hasPackage_iff]
  simp [paths, sorted, Table.keys]

/-- An import block lists its packages in strictly increasing order. -/
theorem paths_pairwise (imports : Imports) : imports.paths.Pairwise (· < ·) := by
  have hsorted : imports.sorted.Pairwise fun a b => a.1 ≤ b.1 := by
    refine List.Pairwise.imp ?_ (List.pairwise_mergeSort ?_ ?_ imports.packages.entries)
    · intro a b h
      exact of_decide_eq_true h
    · intro a b c hab hbc
      exact decide_eq_true (le_trans (of_decide_eq_true hab) (of_decide_eq_true hbc))
    · intro a b
      simpa only [Bool.or_eq_true, decide_eq_true_eq] using le_total a.1 b.1
  have hnodup : imports.paths.Nodup :=
    (List.Perm.nodup_iff ((List.mergeSort_perm _ _).map Prod.fst)).mpr imports.packages.nodup
  have hle : imports.paths.Pairwise (· ≤ ·) := List.pairwise_map.mpr hsorted
  exact (hle.and hnodup).imp fun h => lt_of_le_of_ne h.1 h.2

/-- This is the order of the bytes of their paths. -/
theorem utf8_paths_pairwise (imports : Imports) :
    (imports.paths.map Go.utf8).Pairwise (· < ·) :=
  imports.paths_pairwise.map Go.utf8 fun _ _ => Text.utf8_lt_of_lt

/-- The sets have the same packages and the same symbols of each. The order in which these were
first seen may differ. -/
structure Agree (a b : Imports) : Prop where
  packages : ∀ package, a.hasPackage package = true ↔ b.hasPackage package = true
  symbols : ∀ package symbol,
    a.hasSymbol package symbol = true ↔ b.hasSymbol package symbol = true

/-- Lists without repetitions have the same members if they are of the same length and one of them
has the members of the other. -/
theorem length_eq_and_mem_iff {xs ys : List String} (hxs : xs.Nodup) (hys : ys.Nodup) :
    (xs.length = ys.length ∧ ∀ x ∈ xs, x ∈ ys) ↔ ∀ x, x ∈ xs ↔ x ∈ ys := by
  rw [← List.perm_ext_iff_of_nodup hxs hys]
  constructor
  · rintro ⟨hlength, hmem⟩
    exact (List.subperm_of_subset hxs hmem).perm_of_length_le hlength.ge
  · intro hperm
    exact ⟨hperm.length_eq, fun x => hperm.mem_iff.mp⟩

/-- Sets of equally many packages, one within the other, have the same packages. -/
theorem size_eq_and_hasPackage_iff (a b : Imports) :
    (a.size = b.size ∧ ∀ entry ∈ a.packages.entries, b.hasPackage entry.1 = true) ↔
      ∀ package, a.hasPackage package = true ↔ b.hasPackage package = true := by
  simp only [hasPackage_iff, Table.keys]
  rw [← length_eq_and_mem_iff a.packages.nodup b.packages.nodup]
  simp only [size, Table.size, List.length_map, List.forall_mem_map]

theorem size_eq_and_hasSymbol_iff (a b : Imports) (package : String) :
    ((b.symbols package).size = (a.symbols package).size ∧
        ∀ symbol ∈ (a.symbols package).toList, b.hasSymbol package symbol = true) ↔
      ∀ symbol, a.hasSymbol package symbol = true ↔ b.hasSymbol package symbol = true := by
  simp only [hasSymbol_iff]
  rw [← length_eq_and_mem_iff (a.symbols package).nodup (b.symbols package).nodup,
    eq_comm]
  rfl

theorem symbols_of_mem {imports : Imports} {entry : String × OrderedSet String}
    (h : entry ∈ imports.packages.entries) : imports.symbols entry.1 = entry.2 := by
  rw [symbols, (Table.mem_entries_iff _ _ _).mp h]
  rfl

/-- Comparing sets by their sizes and the members of one of them is comparing all members. -/
theorem same_iff (a b : Imports) : a.same b = true ↔ a.Agree b := by
  have hsame : a.same b = true ↔
      (a.size = b.size ∧ ∀ entry ∈ a.packages.entries, b.hasPackage entry.1 = true) ∧
        ∀ entry ∈ a.packages.entries, (b.symbols entry.1).size = (a.symbols entry.1).size ∧
          ∀ symbol ∈ (a.symbols entry.1).toList, b.hasSymbol entry.1 symbol = true := by
    simp only [same, Bool.and_eq_true, decide_eq_true_eq, List.all_eq_true, and_assoc]
    refine and_congr_right fun _ => ?_
    rw [← forall₂_and]
    refine forall₂_congr fun entry hentry => ?_
    rw [symbols_of_mem hentry]
  rw [hsame, size_eq_and_hasPackage_iff]
  simp only [size_eq_and_hasSymbol_iff]
  constructor
  · rintro ⟨hpackages, hsymbols⟩
    refine ⟨hpackages, fun package symbol => ?_⟩
    by_cases h : package ∈ a.packages.keys
    · obtain ⟨entry, hentry, rfl⟩ := List.mem_map.mp h
      exact hsymbols entry hentry symbol
    · rw [← hasPackage_iff] at h
      exact iff_of_false (fun hin => h (hasPackage_of_hasSymbol hin))
        fun hin => h ((hpackages package).mpr (hasPackage_of_hasSymbol hin))
  · intro h
    exact ⟨h.packages, fun entry _ => h.symbols entry.1⟩

theorem Agree.add {a b : Imports} (h : a.Agree b) (package symbol : String) :
    (a.add package symbol).Agree (b.add package symbol) where
  packages := fun other => by rw [hasPackage_add, hasPackage_add, h.packages]
  symbols := fun other name => by rw [hasSymbol_add, hasSymbol_add, h.symbols]

/-- The order of merges plays no part. -/
theorem agree_foldl_merge {α : Type} (part : α → Imports) {parts others : List α}
    (h : parts.Perm others) (start : Imports) :
    (parts.foldl (fun all x => all.merge (part x)) start).Agree
      (others.foldl (fun all x => all.merge (part x)) start) := by
  constructor
  · intro package
    have hmerged := foldl_merge_iff (·.hasPackage package = true)
      (fun _ _ => hasPackage_merge _ _ _) part
    simp only [hmerged, h.mem_iff]
  · intro package symbol
    simp only [hasSymbol_foldl_merge, h.mem_iff]

/-- Equal sets have the same import block. -/
theorem Agree.paths_eq {a b : Imports} (h : a.Agree b) : a.paths = b.paths := by
  refine List.Pairwise.eq_of_mem_iff a.paths_pairwise b.paths_pairwise fun package => ?_
  rw [mem_paths, mem_paths, h.packages]

end GioForge.Code.Imports
