import GioForge.Proofs.Document.Records
import Mathlib.Data.List.Forall2
import Mathlib.Data.String.Basic

/-!
Trees that differ in the order of keys. Two texts may give the entries of their objects in
different orders, at every depth, and mean the same. What is read from their trees can only
differ in the fault that is met first, so results are compared by what they give, if they
give anything.

Entries are taken one after the other. If what two entries with different keys do may be
done in either order, then all of them may be taken in any order, and that is how the order
of keys drops out here and in every decoder.
-/

namespace GioForge

section Results

variable {ε α β γ σ : Type}

theorem toOption_bind (first : Except ε α) (next : α → Except ε β) :
    (first >>= next).toOption = first.toOption.bind fun x => (next x).toOption := by
  cases first <;> rfl

theorem toOption_map (f : α → β) (first : Except ε α) :
    (first.map f).toOption = first.toOption.map f := by
  cases first <;> rfl

/-- Steps that give the same up to their faults give the same one after the other. -/
theorem toOption_bind_congr {first other : Except ε α} {next after : α → Except ε β}
    (h : first.toOption = other.toOption)
    (hnext : ∀ x, first = .ok x → (next x).toOption = (after x).toOption) :
    (first >>= next).toOption = (other >>= after).toOption := by
  rw [toOption_bind, toOption_bind, ← h]
  cases first with
  | error fault => rfl
  | ok x => exact hnext x rfl

theorem toOption_mapM_congr {f : α → Except ε β} {xs ys : List α} (hlength : xs.length = ys.length)
    (h : ∀ pair ∈ xs.zip ys, (f pair.1).toOption = (f pair.2).toOption) :
    (xs.mapM f).toOption = (ys.mapM f).toOption := by
  induction xs generalizing ys with
  | nil =>
      obtain rfl := List.eq_nil_of_length_eq_zero hlength.symm
      rfl
  | cons x rest ih =>
      obtain ⟨y, more, rfl⟩ := List.exists_cons_of_length_eq_add_one hlength.symm
      rw [List.zip_cons_cons] at h
      obtain ⟨hfirst, hrest⟩ := List.forall_mem_cons.mp h
      rw [List.mapM_cons, List.mapM_cons]
      refine toOption_bind_congr hfirst fun _ _ => ?_
      exact toOption_bind_congr (ih (Nat.succ.inj hlength) hrest) fun _ _ => rfl

/-- The two changes may be made in either order. -/
def Swaps (f g : σ → Except ε σ) : Prop :=
  ∀ s, (f s >>= g).toOption = (g s >>= f).toOption

theorem Swaps.symm {f g : σ → Except ε σ} (h : Swaps f g) : Swaps g f :=
  fun s => (h s).symm

theorem swaps_of_fails (fault : ε) (g : σ → Except ε σ) : Swaps (fun _ => .error fault) g := by
  intro s
  rw [toOption_bind, toOption_bind]
  cases (g s).toOption <;> rfl

theorem swaps_of_keeps (g : σ → Except ε σ) : Swaps Except.ok g := by
  intro s
  rw [toOption_bind, toOption_bind]
  exact (Option.bind_fun_some (g s).toOption).symm

/-- Changes by values that do not depend on what is changed. -/
theorem swaps_map {first : Except ε β} {second : Except ε γ} {f : β → σ → σ} {g : γ → σ → σ}
    (h : ∀ x y s, g y (f x s) = f x (g y s)) :
    Swaps (fun s => first.map (f · s)) (fun s => second.map (g · s)) := by
  intro s
  cases first with
  | error fault => cases second <;> rfl
  | ok x =>
      cases second with
      | error fault => rfl
      | ok y => exact congrArg some (h x y s)

/-- Steps that swap pairwise may be taken in any order. -/
theorem toOption_foldlM_perm {step : σ → α → Except ε σ} {xs ys : List α} (h : xs.Perm ys)
    (hswap : xs.Pairwise fun x y => Swaps (step · x) (step · y)) (s : σ) :
    (xs.foldlM step s).toOption = (ys.foldlM step s).toOption := by
  induction h generalizing s with
  | nil => rfl
  | cons x _ ih =>
      rw [List.foldlM_cons, List.foldlM_cons]
      exact toOption_bind_congr rfl fun t _ => ih (List.pairwise_cons.mp hswap).2 t
  | swap x y rest =>
      have hfirst : Swaps (step · y) (step · x) :=
        (List.pairwise_cons.mp hswap).1 x List.mem_cons_self
      simp only [List.foldlM_cons, ← bind_assoc]
      exact toOption_bind_congr (hfirst s) fun _ _ => rfl
  | trans hxy _ ihxy ihyz =>
      exact (ihxy hswap s).trans (ihyz (hxy.pairwise hswap Swaps.symm) s)

end Results

namespace Fields

theorem insert_of_lt_head {fields : Fields} {name : String} (value : Value)
    (h : ∀ field, fields.head? = some field → name < field.1) :
    fields.insert name value = (name, value) :: fields := by
  cases fields with
  | nil => rfl
  | cons field rest => exact if_pos (h field rfl)

theorem insert_cons_of_lt {first name : String} (h : first < name) (value other : Value)
    (rest : Fields) :
    insert name value ((first, other) :: rest) = (first, other) :: rest.insert name value := by
  rw [insert, if_neg (lt_asymm h), if_neg h.ne']

/-- Two entries can be inserted in either order. -/
theorem insert_comm_of_lt (fields : Fields) {m n : String} (h : m < n) (v w : Value) :
    (fields.insert m v).insert n w = (fields.insert n w).insert m v := by
  induction fields with
  | nil => rw [insert, insert_cons_of_lt h, insert, insert, if_pos h]
  | cons field rest ih =>
      obtain ⟨name, u⟩ := field
      rcases lt_trichotomy m name with hlt | rfl | hgt
      · have hhead : ∀ field,
            (insert n w ((name, u) :: rest)).head? = some field → m < field.1 := by
          intro field hfield
          unfold insert at hfield
          split_ifs at hfield
          · exact Option.some.inj hfield ▸ h
          · exact Option.some.inj hfield ▸ h
          · exact Option.some.inj hfield ▸ hlt
        rw [insert, if_pos hlt, insert_cons_of_lt h, insert_of_lt_head v hhead]
      · rw [insert, if_neg (lt_irrefl m), if_pos rfl, insert_cons_of_lt h, insert_cons_of_lt h,
          insert, if_neg (lt_irrefl m), if_pos rfl]
      · rw [insert_cons_of_lt hgt, insert_cons_of_lt (hgt.trans h), insert_cons_of_lt (hgt.trans h),
          insert_cons_of_lt hgt, ih]

/-- Under different names, what is inserted first plays no part. -/
theorem insert_comm (fields : Fields) {m n : String} (h : m ≠ n) (v w : Value) :
    (fields.insert m v).insert n w = (fields.insert n w).insert m v := by
  obtain hlt | hgt := lt_or_gt_of_ne h
  · exact insert_comm_of_lt fields hlt v w
  · exact (insert_comm_of_lt fields hgt w v).symm

end Fields

namespace Document

def keyOf (entry : Except Fault String × Node) : Option String :=
  entry.1.toOption

/-- The trees are those of whole values that are the same up to the order of the entries of
objects; no object gives a key twice. Where the values stand in their texts plays no part, and
strings and numerals without a value are not told apart. -/
inductive Reordered : Node → Node → Prop
  | null (mark place : Nat) : Reordered (.null mark) (.null place)
  | bool (mark place : Nat) (b : Bool) : Reordered (.bool mark b) (.bool place b)
  | number (mark place : Nat) {n m : Except Fault Number} (hsame : n.toOption = m.toOption) :
      Reordered (.number mark n) (.number place m)
  | text (mark place : Nat) {s t : Except Fault String} (hsame : s.toOption = t.toOption) :
      Reordered (.text mark s) (.text place t)
  | array (mark place : Nat) {items others : List Node} (hlength : items.length = others.length)
      (hitems : ∀ pair ∈ items.zip others, Reordered pair.1 pair.2) :
      Reordered (.array mark items none) (.array place others none)
  | object (mark place : Nat) {entries arranged others : List (Except Fault String × Node)}
      (hdistinct : (entries.filterMap keyOf).Nodup)
      (hkeys : entries.map keyOf = arranged.map keyOf)
      (hvalues : ∀ pair ∈ entries.zip arranged, Reordered pair.1.2 pair.2.2)
      (horder : arranged.Perm others) :
      Reordered (.object mark entries none) (.object place others none)

theorem filterMap_keyOf {entries others : List (Except Fault String × Node)}
    (h : entries.map keyOf = others.map keyOf) :
    entries.filterMap keyOf = others.filterMap keyOf := by
  have hread : ∀ list, List.filterMap keyOf list = (list.map keyOf).filterMap id :=
    fun list => by rw [List.filterMap_map]; rfl
  rw [hread, h, ← hread]

/-- What an entry does to what was read before it, if its key can be read. -/
def named {σ : Type} (act : String → Node → σ → Except Fault σ)
    (state : σ) (entry : Except Fault String × Node) : Except Fault σ := do
  let name ← entry.1
  act name entry.2 state

section Entries

variable {σ : Type} {act : String → Node → σ → Except Fault σ}

/-- A named entry acts under its name, and one without a name stops the reading. -/
theorem toOption_named (state : σ) (entry : Except Fault String × Node) :
    (named act state entry).toOption =
      (keyOf entry).bind fun name => (act name entry.2 state).toOption :=
  toOption_bind _ _

/-- Entries whose names act independently can change places. -/
theorem swaps_named {first second : Except Fault String × Node}
    (hapart : ∀ m, keyOf first = some m → ∀ n, keyOf second = some n → m ≠ n)
    (hswap : ∀ m n a b, m ≠ n → Swaps (act m a) (act n b)) :
    Swaps (named act · first) (named act · second) := by
  obtain ⟨firstKey, a⟩ := first
  obtain ⟨secondKey, b⟩ := second
  cases firstKey with
  | error fault => exact swaps_of_fails fault _
  | ok m =>
      cases secondKey with
      | error fault => exact (swaps_of_fails fault _).symm
      | ok n => exact hswap m n a b (hapart m rfl n rfl)

/-- Entries with related values and the same keys, and then in another order. `Alike` is what is
known of the values. -/
theorem toOption_foldlM_named (Alike : Node → Node → Prop)
    {entries arranged others : List (Except Fault String × Node)}
    (hdistinct : (entries.filterMap keyOf).Nodup)
    (hkeys : entries.map keyOf = arranged.map keyOf)
    (hvalues : ∀ pair ∈ entries.zip arranged, Alike pair.1.2 pair.2.2)
    (horder : arranged.Perm others)
    (halike : ∀ name a b state, Alike a b →
      (act name a state).toOption = (act name b state).toOption)
    (hswap : ∀ m n a b, m ≠ n → Swaps (act m a) (act n b)) (state : σ) :
    (entries.foldlM (named act) state).toOption = (others.foldlM (named act) state).toOption := by
  have hsame : (entries.foldlM (named act) state).toOption =
      (arranged.foldlM (named act) state).toOption := by
    clear hdistinct horder
    induction entries generalizing arranged state with
    | nil =>
        obtain rfl := List.map_eq_nil_iff.mp hkeys.symm
        rfl
    | cons entry rest ih =>
        obtain ⟨other, more, rfl, hkey, hmore⟩ := List.map_eq_cons_iff.mp hkeys.symm
        rw [List.zip_cons_cons] at hvalues
        obtain ⟨hfirst, hrest⟩ := List.forall_mem_cons.mp hvalues
        rw [List.foldlM_cons, List.foldlM_cons]
        refine toOption_bind_congr ?_ fun next _ => ih hmore.symm hrest next
        rw [toOption_named, toOption_named, hkey]
        congr 1
        funext name
        exact halike name _ _ state hfirst
  rw [filterMap_keyOf hkeys] at hdistinct
  rw [hsame]
  refine toOption_foldlM_perm horder ?_ state
  exact (List.pairwise_filterMap.mp hdistinct).imp fun h => swaps_named h hswap

end Entries

namespace Node

def addField (room : Option Nat) (name : String) (node : Node) (done : Fields) :
    Except Fault Fields :=
  (node.value room).map fun v => done.insert name v

theorem fields_eq_foldlM (room : Option Nat) (done : Fields)
    (entries : List (Except Fault String × Node)) :
    fields room done entries = entries.foldlM (named (addField room)) done := by
  induction entries generalizing done with
  | nil => rfl
  | cons entry rest ih =>
      obtain ⟨key, node⟩ := entry
      rw [fields, List.foldlM_cons]
      cases key with
      | error fault => rfl
      | ok name =>
          change (value room node >>= _) = (addField room name node done >>= _)
          unfold addField
          cases value room node with
          | error fault => rfl
          | ok v => exact ih (done.insert name v)

theorem swaps_addField (room : Option Nat) {m n : String} (h : m ≠ n) (a b : Node) :
    Swaps (addField room m a) (addField room n b) :=
  swaps_map fun v w done => Fields.insert_comm done h v w

theorem values_eq_mapM (room : Option Nat) (items : List Node) :
    values room items = items.mapM (value room) := by
  induction items with
  | nil => rfl
  | cons item rest ih => rw [values, List.mapM_cons, ih]

/-- The data of a tree does not depend on the order of keys. -/
theorem toOption_value {node other : Node} (h : Reordered node other) (room : Option Nat) :
    (node.value room).toOption = (other.value room).toOption := by
  -- By induction on the relation; its premises about parts settle items and entries.
  induction h generalizing room with
  | null mark place => rfl
  | bool mark place b => rfl
  | number mark place hsame =>
      rw [value, value, toOption_map, toOption_map, hsame]
  | text mark place hsame =>
      rw [value, value, toOption_map, toOption_map, hsame]
  | array mark place hlength hitems ih =>
      rw [value, value]
      split_ifs with hroom
      · rfl
      · refine toOption_bind_congr ?_ fun _ _ => rfl
        rw [values_eq_mapM, values_eq_mapM]
        exact toOption_mapM_congr hlength fun pair hpair => ih pair hpair _
  | object mark place hdistinct hkeys hvalues horder ih =>
      rw [value, value]
      split_ifs with hroom
      · rfl
      · refine toOption_bind_congr ?_ fun _ _ => rfl
        rw [fields_eq_foldlM, fields_eq_foldlM]
        refine toOption_foldlM_named (fun a b => ∀ inner, (a.value inner).toOption =
          (b.value inner).toOption) hdistinct hkeys ih horder (fun name a b done hsame => ?_)
          (fun m n a b h => swaps_addField _ h a b) []
        unfold addField
        rw [toOption_map, toOption_map, hsame _]

end Node

end Document

end GioForge
