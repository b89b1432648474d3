import GioForge.Number.Binary64

/-!
Untyped data, as documents hold it where their shape is open. Numbers keep apart what was written as
a whole number and what was not. An object is a list of entries; the readers of this library put the
entries in key order and keep one entry for each key, which is what `Fields.insert` does.
-/

namespace GioForge

inductive Number where
  /-- A natural number. -/
  | natural (n : Nat)
  /-- The opposite of a natural number other than zero. -/
  | negative (n : Nat)
  /-- A number with a fraction or an exponent, or a whole number too long for the other two. -/
  | binary (x : Binary64)
  deriving DecidableEq, Inhabited

/-- The largest natural number kept exactly. -/
def Number.naturalLimit : Nat := twoTo 64 - 1

def Number.negativeLimit : Nat := twoTo 63

inductive Value where
  | null
  | bool (b : Bool)
  | number (n : Number)
  | text (s : String)
  | array (items : List Value)
  | object (entries : List (String × Value))
  deriving Inhabited

namespace Value

def isNull : Value → Bool
  | .null => true
  | _ => false

def text? : Value → Option String
  | .text s => some s
  | _ => none

/-- The natural number, if this was written as one that is kept exactly. -/
def natural? : Value → Option Nat
  | .number (.natural n) => if n ≤ Number.naturalLimit then some n else none
  | _ => none

end Value

/-- Named values in key order, each name once. -/
abbrev Fields := List (String × Value)

namespace Fields

/-- Puts a value under a name, at its place in the order; a value already there is replaced. -/
def insert (name : String) (value : Value) : Fields → Fields
  | [] => [(name, value)]
  | (n, v) :: rest =>
      if name < n then (name, value) :: (n, v) :: rest
      else if name = n then (name, value) :: rest
      else (n, v) :: insert name value rest

def get? (fields : Fields) (name : String) : Option Value :=
  fields.lookup name

/-- Inserting changes the value under one name. -/
theorem get?_insert (fields : Fields) (name : String) (value : Value) (n : String) :
    (fields.insert name value).get? n = if n = name then some value else fields.get? n := by
  induction fields with
  | nil =>
      by_cases h : n = name
      · simp [insert, get?, h]
      · simp [insert, get?, h, List.lookup_cons, beq_eq_false_iff_ne.mpr h]
  | cons field rest ih =>
      obtain ⟨n', v⟩ := field
      simp only [get?] at ih ⊢
      simp only [insert]
      split
      · by_cases h : n = name
        · simp [h]
        · simp [h, List.lookup_cons, beq_eq_false_iff_ne.mpr h]
      · split
        · next heq =>
            subst heq
            by_cases h : n = name
            · simp [h]
            · simp [h, List.lookup_cons, beq_eq_false_iff_ne.mpr h]
        · next hne =>
            by_cases h : n = n'
            · subst h
              simp [Ne.symm hne]
            · simp [List.lookup_cons, beq_eq_false_iff_ne.mpr h, ih]

def erase (fields : Fields) (name : String) : Fields :=
  fields.filter fun field => field.1 ≠ name

end Fields

end GioForge
