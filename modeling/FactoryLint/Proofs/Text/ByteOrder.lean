import Mathlib.Data.List.Basic
import Mathlib.Data.String.Basic

namespace FactoryLint.Text

def bytes (text : String) : List UInt8 := text.toUTF8.data.toList

theorem bytes_eq (text : String) : bytes text = text.toList.flatMap String.utf8EncodeChar := by
  rw [bytes, String.toUTF8, ← String.utf8Encode_toList]
  exact List.data_toByteArray ▸ rfl

theorem cons_lt_cons_of_le {x y : UInt8} {xs ys : List UInt8} (h : x.toNat ≤ y.toNat)
    (heq : x.toNat = y.toNat → xs < ys) : x :: xs < y :: ys := by
  rw [List.cons_lt_cons_iff, UInt8.lt_iff_toNat_lt, ← UInt8.toNat_inj]
  rcases Nat.lt_or_eq_of_le h with hlt | he
  · exact Or.inl hlt
  · exact Or.inr ⟨he, heq he⟩

theorem cons_lt_cons_of_lt {x y : UInt8} (xs ys : List UInt8) (h : x.toNat < y.toNat) :
    x :: xs < y :: ys :=
  cons_lt_cons_of_le (Nat.le_of_lt h) fun he => absurd he (Nat.ne_of_lt h)

/-- The encodings of two characters differ before either ends, and the first byte in which they
differ is the lesser one for the lesser character. -/
theorem utf8EncodeChar_append_lt {c d : Char} (h : c < d) (xs ys : List UInt8) :
    String.utf8EncodeChar c ++ xs < String.utf8EncodeChar d ++ ys := by
  have hlt : c.val.toNat < d.val.toNat := h
  have hmax : d.val.toNat < 0x110000 := by
    have hvalid := d.valid
    unfold UInt32.isValidChar Nat.isValidChar at hvalid
    omega
  unfold String.utf8EncodeChar
  generalize c.val.toNat = m at *
  generalize d.val.toNat = n at *
  dsimp only
  split_ifs
  any_goals omega
  -- Encodings of different lengths differ in the first byte, and so do those of one byte.
  any_goals
    refine cons_lt_cons_of_lt _ _ ?_
    simp only [UInt8.toNat_ofNat']
    omega
  · refine cons_lt_cons_of_le ?_ fun h₁ => cons_lt_cons_of_lt _ _ ?_
      <;> simp only [UInt8.toNat_ofNat'] at *
      <;> omega
  · refine cons_lt_cons_of_le ?_ fun h₁ => cons_lt_cons_of_le ?_ fun h₂ =>
      cons_lt_cons_of_lt _ _ ?_
      <;> simp only [UInt8.toNat_ofNat'] at *
      <;> omega
  · refine cons_lt_cons_of_le ?_ fun h₁ => cons_lt_cons_of_le ?_ fun h₂ =>
      cons_lt_cons_of_le ?_ fun h₃ => cons_lt_cons_of_lt _ _ ?_
      <;> simp only [UInt8.toNat_ofNat'] at *
      <;> omega

theorem nil_lt_utf8EncodeChar_append (c : Char) (xs : List UInt8) :
    [] < String.utf8EncodeChar c ++ xs := by
  have hpos : 0 < (String.utf8EncodeChar c ++ xs).length := by
    rw [List.length_append, String.length_utf8EncodeChar]
    exact Nat.add_pos_left c.utf8Size_pos _
  obtain ⟨y, ys, hys⟩ := List.exists_cons_of_length_pos hpos
  rw [hys]
  exact List.nil_lt_cons y ys

theorem flatMap_utf8EncodeChar_lt {as bs : List Char} (h : as < bs) :
    as.flatMap String.utf8EncodeChar < bs.flatMap String.utf8EncodeChar := by
  induction as generalizing bs with
  | nil =>
    cases bs with
    | nil => exact absurd h (List.lt_irrefl [])
    | cons b bs =>
      rw [List.flatMap_cons]
      exact nil_lt_utf8EncodeChar_append b _
  | cons a as ih =>
    cases bs with
    | nil => exact absurd h (List.not_lt_nil _)
    | cons b bs =>
      rw [List.flatMap_cons, List.flatMap_cons]
      rcases List.cons_lt_cons_iff.mp h with hab | ⟨rfl, has⟩
      · exact utf8EncodeChar_append_lt hab _ _
      · exact List.append_left_lt (ih has)

theorem bytes_lt_of_lt {a b : String} (h : a < b) : bytes a < bytes b := by
  rw [bytes_eq, bytes_eq]
  exact flatMap_utf8EncodeChar_lt (String.lt_iff_toList_lt.mp h)

theorem bytes_injective : Function.Injective bytes := fun _ _ h =>
  String.toByteArray_inj.mp (ByteArray.ext (Array.toList_inj.mp h))

end FactoryLint.Text
