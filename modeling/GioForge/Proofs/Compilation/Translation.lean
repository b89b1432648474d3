import GioForge.Compilation
import GioForge.Proofs.Component.Builtin
import Mathlib.Data.List.Forall2

/-!
Translating the elements of a document one after the other. With any translators, the
translation succeeds exactly if every element is translated, and otherwise its error
is that of the first element that is not; the elements after it are not looked at.
-/

namespace GioForge

section Traversal

variable {ε α β : Type}

/-- The first fault in a row of steps is the fault of all. -/
theorem error_bind_iff {first : Except ε α} {next : α → Except ε β} {e : ε} :
    first >>= next = .error e ↔
      first = .error e ∨ ∃ value, first = .ok value ∧ next value = .error e := by
  cases first <;> simp [bind, Except.bind]

variable {f : α → Except ε β}

/-- All succeed exactly if each does, and the results stand in the order of the list. -/
theorem mapM_ok_iff {xs : List α} {ys : List β} :
    xs.mapM f = .ok ys ↔ List.Forall₂ (fun x y => f x = .ok y) xs ys := by
  induction xs generalizing ys with
  | nil =>
      rw [List.mapM_nil, List.forall₂_nil_left_iff]
      exact ⟨fun h => (Except.ok.inj h).symm, fun h => congrArg _ h.symm⟩
  | cons x rest ih =>
      rw [List.mapM_cons]
      constructor
      · intro h
        obtain ⟨y, hy, h⟩ := ok_of_bind h
        obtain ⟨more, hmore, h⟩ := ok_of_bind h
        obtain rfl := Except.ok.inj h
        exact .cons hy (ih.mp hmore)
      · intro h
        cases h with
        | cons hy hmore =>
            rw [hy, ih.mpr hmore]
            rfl

/-- A traversal fails with the error of the first element that fails. -/
theorem mapM_error_iff {xs : List α} {e : ε} :
    xs.mapM f = .error e ↔
      ∃ (i : Nat) (x : α), xs[i]? = some x ∧ f x = .error e ∧
        ∀ j < i, ∀ y, xs[j]? = some y → ∃ z, f y = .ok z := by
  induction xs with
  | nil =>
      constructor
      · intro h
        cases h
      · rintro ⟨i, x, hx, _⟩
        cases hx
  | cons x rest ih =>
      rw [List.mapM_cons, error_bind_iff]
      constructor
      · rintro (hx | ⟨value, hvalue, h⟩)
        · exact ⟨0, x, rfl, hx, by omega⟩
        · rcases error_bind_iff.mp h with hrest | ⟨_, _, hpure⟩
          · obtain ⟨i, y, hy, hfails, hbefore⟩ := ih.mp hrest
            refine ⟨i + 1, y, hy, hfails, ?_⟩
            rintro (_ | j) hj z hz
            · obtain rfl : x = z := Option.some.inj hz
              exact ⟨value, hvalue⟩
            · exact hbefore j (by omega) z hz
          · cases hpure
      · rintro ⟨i, y, hy, hfails, hbefore⟩
        cases i with
        | zero =>
            obtain rfl : x = y := Option.some.inj hy
            exact .inl hfails
        | succ i =>
            obtain ⟨value, hvalue⟩ := hbefore 0 (by omega) x rfl
            have hrest := ih.mpr ⟨i, y, hy, hfails, fun j hj => hbefore (j + 1) (by omega)⟩
            exact .inr ⟨value, hvalue, error_bind_iff.mpr (.inl hrest)⟩

end Traversal

namespace Compilation

/-- The step of the translation that puts one element into its place. -/
def place (translators : Translators) (p : Ui.Element × Nat) : Except CompileError Placed := do
  return ⟨p.2, p.1, ← translators.instantiate p.2 p.1⟩

theorem translate_eq_mapM (translators : Translators) (elements : List Ui.Element) :
    translate translators elements = elements.zipIdx.mapM (place translators) := rfl

theorem place_ok_iff {translators : Translators} {p : Ui.Element × Nat} {placed : Placed} :
    place translators p = .ok placed ↔
      ∃ c, translators.instantiate p.2 p.1 = .ok c ∧ placed = ⟨p.2, p.1, c⟩ := by
  constructor
  · intro h
    obtain ⟨c, hc, h⟩ := ok_of_bind h
    exact ⟨c, hc, (Except.ok.inj h).symm⟩
  · rintro ⟨c, hc, rfl⟩
    unfold place
    rw [hc]
    rfl

theorem place_error_iff {translators : Translators} {p : Ui.Element × Nat} {e : CompileError} :
    place translators p = .error e ↔ translators.instantiate p.2 p.1 = .error e := by
  unfold place
  rw [error_bind_iff]
  constructor
  · rintro (h | ⟨_, _, hpure⟩)
    · exact h
    · cases hpure
  · exact .inl

theorem getElem?_zipIdx_eq_some_iff {α : Type} {xs : List α} {i : Nat} {p : α × Nat} :
    xs.zipIdx[i]? = some p ↔ xs[i]? = some p.1 ∧ p.2 = i := by
  rw [List.getElem?_zipIdx, Option.map_eq_some_iff]
  constructor
  · rintro ⟨x, hx, rfl⟩
    exact ⟨hx, Nat.zero_add i⟩
  · rintro ⟨hx, rfl⟩
    exact ⟨p.1, hx, by simp⟩

/-- Every element of a translated document stands in its place with its component. -/
theorem translate_ok {translators : Translators} {elements : List Ui.Element}
    {placed : List Placed} (h : translate translators elements = .ok placed) :
    placed.length = elements.length ∧
      ∀ i e, elements[i]? = some e →
        ∃ c, translators.instantiate i e = .ok c ∧ placed[i]? = some ⟨i, e, c⟩ := by
  rw [translate_eq_mapM, mapM_ok_iff, List.forall₂_iff_get] at h
  obtain ⟨hlength, hplaced⟩ := h
  rw [List.length_zipIdx] at hlength
  refine ⟨hlength.symm, ?_⟩
  intro i e he
  obtain ⟨hi, rfl⟩ := List.getElem?_eq_some_iff.mp he
  obtain ⟨c, hc, hp⟩ := place_ok_iff.mp (hplaced i (by simpa using hi) (hlength ▸ hi))
  refine ⟨c, by simpa using hc, ?_⟩
  rw [List.getElem?_eq_getElem (hlength ▸ hi)]
  simpa using hp

theorem exists_translate_ok_iff {translators : Translators} {elements : List Ui.Element} :
    (∃ placed, translate translators elements = .ok placed) ↔
      ∀ i e, elements[i]? = some e → ∃ c, translators.instantiate i e = .ok c := by
  constructor
  · rintro ⟨placed, h⟩ i e he
    obtain ⟨c, hc, _⟩ := (translate_ok h).2 i e he
    exact ⟨c, hc⟩
  · intro h
    cases htranslate : translate translators elements with
    | ok placed => exact ⟨placed, rfl⟩
    | error e =>
        rw [translate_eq_mapM, mapM_error_iff] at htranslate
        obtain ⟨i, p, hp, hfails, _⟩ := htranslate
        obtain ⟨he, rfl⟩ := getElem?_zipIdx_eq_some_iff.mp hp
        obtain ⟨c, hc⟩ := h p.2 p.1 he
        rw [place_error_iff, hc] at hfails
        cases hfails

/-- A translation fails with the error of the first element that is not translated. -/
theorem translate_error_iff {translators : Translators} {elements : List Ui.Element}
    {error : CompileError} :
    translate translators elements = .error error ↔
      ∃ i e, elements[i]? = some e ∧ translators.instantiate i e = .error error ∧
        ∀ j < i, ∀ d, elements[j]? = some d → ∃ c, translators.instantiate j d = .ok c := by
  rw [translate_eq_mapM, mapM_error_iff]
  constructor
  · rintro ⟨i, p, hp, hfails, hbefore⟩
    obtain ⟨he, rfl⟩ := getElem?_zipIdx_eq_some_iff.mp hp
    refine ⟨p.2, p.1, he, place_error_iff.mp hfails, ?_⟩
    intro j hj d hd
    obtain ⟨placed, hplaced⟩ := hbefore j hj (d, j) (getElem?_zipIdx_eq_some_iff.mpr ⟨hd, rfl⟩)
    obtain ⟨c, hc, _⟩ := place_ok_iff.mp hplaced
    exact ⟨c, hc⟩
  · rintro ⟨i, e, he, hfails, hbefore⟩
    refine ⟨i, (e, i), getElem?_zipIdx_eq_some_iff.mpr ⟨he, rfl⟩, place_error_iff.mpr hfails, ?_⟩
    intro j hj p hp
    obtain ⟨hd, rfl⟩ := getElem?_zipIdx_eq_some_iff.mp hp
    obtain ⟨c, hc⟩ := hbefore p.2 hj p.1 hd
    exact ⟨_, place_ok_iff.mpr ⟨c, hc, rfl⟩⟩

end Compilation

end GioForge
