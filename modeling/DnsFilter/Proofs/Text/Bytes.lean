import DnsFilter.Precedence
import Mathlib.Data.String.Basic
import Mathlib.Tactic.SplitIfs

/-! The order of texts. Texts are compared character by character, and their UTF-8 bytes are in the same
order: of two characters the greater one has the greater bytes, and neither's bytes start with those of
the other. -/

namespace DnsFilter

namespace Text

open String (utf8EncodeChar)

/-- The UTF-8 bytes of a text. -/
def bytes (s : String) : List UInt8 := s.toUTF8.data.toList

theorem bytes_eq_flatMap (s : String) : bytes s = s.toList.flatMap utf8EncodeChar := by
  conv_lhs => rw [← String.ofList_toList (s := s)]
  rw [bytes, String.toUTF8_eq_toByteArray]
  simp [String.ofList, List.utf8Encode]

/-! ### Characters -/

theorem toNat_val_lt (c : Char) : c.val.toNat < 0x110000 := by
  rcases c.valid with hlow | ⟨-, hhigh⟩
  · exact Nat.lt_trans hlow (by decide)
  · exact hhigh

theorem cons_lt_cons_of_le {m n : Nat} {x y : List UInt8} (hn : n < 256) (hle : m ≤ n)
    (hrest : m = n → x < y) : UInt8.ofNat m :: x < UInt8.ofNat n :: y := by
  rw [List.cons_lt_cons_iff]
  rcases Nat.lt_or_eq_of_le hle with hlt | rfl
  · left
    rw [UInt8.lt_iff_toNat_lt, UInt8.toNat_ofNat', UInt8.toNat_ofNat']
    omega
  · exact .inr ⟨rfl, hrest rfl⟩

/-- The bytes of a smaller character go first, whatever follows. -/
theorem utf8EncodeChar_append_lt {c d : Char} (h : c < d) (x y : List UInt8) :
    utf8EncodeChar c ++ x < utf8EncodeChar d ++ y := by
  have hcd : c.val.toNat < d.val.toNat := h
  have hd := toNat_val_lt d
  unfold utf8EncodeChar
  generalize c.val.toNat = m at *
  generalize d.val.toNat = n at *
  -- characters of different lengths differ in the first byte, others in the first digit to base 64
  simp only
  split_ifs <;> simp only [List.cons_append, List.nil_append]
  all_goals repeat' refine cons_lt_cons_of_le ?_ ?_ fun _ => ?_
  all_goals omega

theorem utf8EncodeChar_ne_nil (c : Char) : utf8EncodeChar c ≠ [] := by
  unfold utf8EncodeChar
  simp only
  split_ifs <;> exact List.cons_ne_nil _ _

/-! ### Texts -/

theorem flatMap_lt {s t : List Char} (h : s < t) :
    s.flatMap utf8EncodeChar < t.flatMap utf8EncodeChar := by
  induction h with
  | nil =>
      rw [List.flatMap_nil, List.flatMap_cons]
      obtain ⟨b, rest, hb⟩ := List.exists_cons_of_ne_nil (utf8EncodeChar_ne_nil _)
      rw [hb]
      exact List.nil_lt_cons _ _
  | cons _ ih =>
      rw [List.flatMap_cons, List.flatMap_cons]
      exact List.append_left_lt ih
  | rel hlt =>
      rw [List.flatMap_cons, List.flatMap_cons]
      exact utf8EncodeChar_append_lt hlt _ _

theorem bytes_lt {a b : String} (h : a < b) : bytes a < bytes b := by
  rw [bytes_eq_flatMap, bytes_eq_flatMap]
  exact flatMap_lt (String.lt_iff_toList_lt.mp h)

theorem lt_iff_bytes_lt {a b : String} : a < b ↔ bytes a < bytes b := by
  refine ⟨bytes_lt, fun h => ?_⟩
  rcases lt_trichotomy a b with hlt | rfl | hgt
  · exact hlt
  · exact absurd h (List.lt_irrefl _)
  · exact absurd (bytes_lt hgt) (List.lt_asymm h)

end Text

theorem Precedence.compareText_eq_lt_iff {a b : String} :
    compareText a b = .lt ↔ Text.bytes a < Text.bytes b := by
  rw [← Text.lt_iff_bytes_lt]
  exact compareOfLessAndEq_eq_lt

end DnsFilter
