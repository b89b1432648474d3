/-!
Sets that remember the order in which their members first appeared.
-/

namespace GioForge

/-- Pairwise distinct members, in order of first insertion. -/
@[ext]
structure OrderedSet (α : Type) where
  /-- The members, oldest first. -/
  toList : List α
  /-- No member is listed twice. -/
  nodup : toList.Nodup

namespace OrderedSet

variable {α : Type} [DecidableEq α]

def empty : OrderedSet α := ⟨[], List.nodup_nil⟩

instance : Inhabited (OrderedSet α) := ⟨⟨[], List.nodup_nil⟩⟩

def contains (set : OrderedSet α) (x : α) : Bool :=
  x ∈ set.toList

/-- The set with a further member, at the end if it is new. -/
def insert (set : OrderedSet α) (x : α) : OrderedSet α :=
  if h : x ∈ set.toList then set
  else
    ⟨set.toList ++ [x], List.nodup_append.mpr ⟨set.nodup, List.pairwise_singleton _ x,
      fun _ ha _ hb heq => h (List.mem_singleton.mp hb ▸ heq ▸ ha)⟩⟩

def insertAll (set : OrderedSet α) (xs : List α) : OrderedSet α :=
  xs.foldl insert set

def size (set : OrderedSet α) : Nat :=
  set.toList.length

/-- Inserting adds one member and takes none away. -/
theorem mem_toList_insert (set : OrderedSet α) (x y : α) :
    y ∈ (set.insert x).toList ↔ y = x ∨ y ∈ set.toList := by
  unfold insert
  split
  · next h =>
      constructor
      · exact Or.inr
      · rintro (rfl | hy)
        · exact h
        · exact hy
  · simp [or_comm]

end OrderedSet

end GioForge
