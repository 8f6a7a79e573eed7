import DnsFilter.Proofs.Time.Elapsed
import Mathlib.Order.Compare
import Mathlib.Order.Defs.LinearOrder

/-! Instants as a linear order. The comparison of two of them says which one is earlier, and the greater
of two is the later. -/

namespace DnsFilter.Instant

variable {a b : Instant}

theorem compare_eq_lt_iff : compare a b = .lt ↔ a < b := by
  show (compare a.second b.second).then (compare a.nanos b.nanos) = .lt ↔ a < b
  rw [Ordering.then_eq_lt, Int.compare_eq_lt, Int.compare_eq_eq, Nat.compare_eq_lt, lt_iff]

theorem compare_eq_eq_iff : compare a b = .eq ↔ a = b := by
  show (compare a.second b.second).then (compare a.nanos b.nanos) = .eq ↔ a = b
  rw [Ordering.then_eq_eq, Int.compare_eq_eq, Nat.compare_eq_eq, Instant.mk.injEq]

instance : LinearOrder Instant where
  le_refl a := .inr ⟨rfl, Nat.le_refl a.nanos⟩
  le_trans _ _ _ := le_trans
  le_antisymm a b hab hba := by
    rw [le_iff] at hab hba
    rw [Instant.mk.injEq]
    omega
  le_total := le_total
  lt_iff_le_not_ge a b := by
    rw [le_iff, lt_iff, le_iff]
    omega
  toOrd := inferInstance
  toDecidableLE := inferInstance
  toDecidableEq := inferInstance
  toDecidableLT := inferInstance
  compare_eq_compareOfLessAndEq a b := by
    rw [compareOfLessAndEq]
    split_ifs with hlt heq
    · exact compare_eq_lt_iff.mpr hlt
    · exact compare_eq_eq_iff.mpr heq
    · cases hab : compare a b with
      | lt => exact absurd (compare_eq_lt_iff.mp hab) hlt
      | eq => exact absurd (compare_eq_eq_iff.mp hab) heq
      | gt => rfl

end DnsFilter.Instant
