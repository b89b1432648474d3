import GioForge.Proofs.Go.Interpreted
import Mathlib.Data.String.Basic

/-!
The order of texts and the order of their bytes. Texts are compared character by character.
UTF-8 gives a greater character a greater encoding, which no other encoding begins, so the
bytes of two texts are in the same order as the texts.
-/

namespace GioForge.Text

open Go (utf8 utf8_eq_flatMap)

/-- Bytes are compared at the first place where they differ. -/
theorem cons_ofNat_lt {a b : Nat} {x y : List UInt8} (hb : b < 256) (hle : a ≤ b)
    (hrest : a = b → x < y) : UInt8.ofNat a :: x < UInt8.ofNat b :: y := by
  rw [List.cons_lt_cons_iff]
  rcases hle.lt_or_eq with hlt | rfl
  · left
    rw [UInt8.lt_iff_toNat_lt, UInt8.toNat_ofNat', UInt8.toNat_ofNat']
    omega
  · exact Or.inr ⟨rfl, hrest rfl⟩

/-- Whatever stands behind them, the encodings of two characters decide. -/
theorem utf8EncodeChar_append_lt {c d : Char} (h : c < d) (x y : List UInt8) :
    String.utf8EncodeChar c ++ x < String.utf8EncodeChar d ++ y := by
  have hlt : c.val.toNat < d.val.toNat := h
  have hvalid : d.val.toNat < 0x110000 := by
    have hd := d.valid
    simp only [UInt32.isValidChar, Nat.isValidChar] at hd
    omega
  simp only [String.utf8EncodeChar]
  split_ifs
  -- The greater character has no shorter encoding. A longer one has a greater first byte, and
  -- two of one length hold the digits of the characters to base 64, the highest first.
  any_goals omega
  all_goals refine cons_ofNat_lt (by omega) (by omega) fun hfirst => ?_
  any_goals omega
  all_goals refine cons_ofNat_lt (by omega) (by omega) fun hsecond => ?_
  any_goals omega
  all_goals refine cons_ofNat_lt (by omega) (by omega) fun hthird => ?_
  any_goals omega
  exact cons_ofNat_lt (by omega) (by omega) (by omega)

theorem utf8EncodeChar_ne_nil (c : Char) : String.utf8EncodeChar c ≠ [] := by
  rw [← List.length_pos_iff, String.length_utf8EncodeChar]
  exact c.utf8Size_pos

/-- The order of texts is that of their bytes. -/
theorem utf8_lt_of_lt {s t : String} (h : s < t) : utf8 s < utf8 t := by
  have hlex : List.Lex (· < ·) s.toList t.toList := String.lt_iff_toList_lt.mp h
  rw [utf8_eq_flatMap, utf8_eq_flatMap]
  generalize s.toList = cs at hlex
  generalize t.toList = ds at hlex
  induction hlex with
  | nil =>
      obtain ⟨b, rest, hbytes⟩ := List.exists_cons_of_ne_nil (utf8EncodeChar_ne_nil _)
      rw [List.flatMap_cons, hbytes]
      exact List.nil_lt_cons _ _
  | cons _ ih =>
      rw [List.flatMap_cons, List.flatMap_cons]
      exact List.append_left_lt ih
  | rel hchars =>
      rw [List.flatMap_cons, List.flatMap_cons]
      exact utf8EncodeChar_append_lt hchars _ _

end GioForge.Text
