import DnsFilter.Text.Decimal
import Mathlib.Data.List.Induction

/-! Which texts are numerals, and of what value. A numeral of `n` is the row of the decimal digits of `n`
with any number of zeros in front, and before those perhaps a plus sign. The reader adds up whatever
digits there are, from the left, and only then looks at the bound. -/

namespace DnsFilter.Text.Decimal

/-- The digits of `n` behind some zeros. -/
def padded (zeros n : Nat) : List Char := List.replicate zeros '0' ++ digits n

/-- The ways to write `n`. -/
inductive Numeral (n : Nat) : List Char → Prop
  | bare (zeros : Nat) : Numeral n (padded zeros n)
  | plus (zeros : Nat) : Numeral n ('+' :: padded zeros n)

theorem isDigit_of_mem_padded {zeros n : Nat} {c : Char} (h : c ∈ padded zeros n) :
    c.isDigit = true := by
  rcases List.mem_append.mp h with hzero | hdigit
  · rw [List.eq_of_mem_replicate hzero]
    rfl
  · exact Nat.isDigit_of_mem_toDigits (by decide) (by decide) hdigit

theorem padded_ne_nil (zeros n : Nat) : padded zeros n ≠ [] :=
  List.append_ne_nil_of_right_ne_nil _ Nat.toDigits_ne_nil

theorem ofDigitChars_padded (zeros n : Nat) : Nat.ofDigitChars 10 (padded zeros n) 0 = n := by
  have hzeros : Nat.ofDigitChars 10 (List.replicate zeros '0') 0 = 0 := by
    induction zeros with
    | zero => rfl
    | succ zeros ih =>
        rw [List.replicate_succ, Nat.ofDigitChars_cons]
        exact ih
  rw [padded, Nat.ofDigitChars_append, hzeros]
  exact Nat.ofDigitChars_ten_toDigits

theorem exists_digitChar {c : Char} (h : c.isDigit = true) : ∃ d, d < 10 ∧ c = d.digitChar := by
  obtain ⟨hlow, hhigh⟩ := Char.isDigit_iff_toNat.mp h
  change 48 ≤ c.toNat at hlow
  change c.toNat ≤ 57 at hhigh
  have hd : c.toNat - 48 < 10 := by omega
  refine ⟨c.toNat - 48, hd, Char.toNat_inj.mp ?_⟩
  rw [Nat.toNat_digitChar_of_lt_ten hd]
  omega

/-- One more digit behind a numeral. -/
theorem exists_padded_append_digit (zeros n : Nat) {d : Nat} (hd : d < 10) :
    ∃ more, padded zeros n ++ [d.digitChar] = padded more (10 * n + d) := by
  have hdigit : digits d = [d.digitChar] := Nat.toDigits_of_lt_base hd
  by_cases hn : n = 0
  · refine ⟨zeros + 1, ?_⟩
    rw [hn, padded, padded, Nat.mul_zero, Nat.zero_add, hdigit, List.replicate_succ']
    rfl
  · refine ⟨zeros, ?_⟩
    have hdigits : digits n ++ digits d = digits (10 * n + d) :=
      Nat.toDigits_append_toDigits (by decide) (Nat.pos_of_ne_zero hn) hd
    rw [padded, padded, ← hdigits, hdigit, List.append_assoc]

/-- Every row of digits is the numeral of its value. -/
theorem exists_eq_padded {ds : List Char} (hne : ds ≠ []) (hdigits : ∀ c ∈ ds, c.isDigit = true) :
    ∃ zeros n, ds = padded zeros n := by
  induction ds using List.reverseRecOn with
  | nil => exact absurd rfl hne
  | append_singleton front c ih =>
      obtain ⟨d, hd, rfl⟩ := exists_digitChar (hdigits c (by simp))
      by_cases hfront : front = []
      · refine ⟨0, d, ?_⟩
        rw [hfront, padded, digits, Nat.toDigits_of_lt_base hd]
        rfl
      · obtain ⟨zeros, n, hnumeral⟩ := ih hfront fun c hc => hdigits c (List.mem_append_left _ hc)
        obtain ⟨more, hmore⟩ := exists_padded_append_digit zeros n hd
        exact ⟨more, 10 * n + d, by rw [hnumeral, hmore]⟩

theorem value?_eq_some_iff {s : List Char} {n : Nat} :
    value? s = some n ↔ ∃ zeros, s = padded zeros n := by
  unfold value?
  constructor
  · intro h
    split at h
    · rename_i hrow
      simp only [Bool.and_eq_true, Bool.not_eq_true', List.isEmpty_eq_false_iff,
        List.all_eq_true] at hrow
      obtain ⟨zeros, m, rfl⟩ := exists_eq_padded hrow.1 hrow.2
      rw [ofDigitChars_padded] at h
      cases h
      exact ⟨zeros, rfl⟩
    · cases h
  · rintro ⟨zeros, rfl⟩
    have hall : (padded zeros n).all Char.isDigit = true :=
      List.all_eq_true.mpr fun c hc => isDigit_of_mem_padded hc
    rw [List.isEmpty_eq_false_iff.mpr (padded_ne_nil zeros n), hall, ofDigitChars_padded]
    rfl

/-- What is read under a bound are the numerals of the numbers up to the bound. -/
theorem unsigned?_eq_some_iff {bound : Nat} {s : List Char} {n : Nat} :
    unsigned? bound s = some n ↔ n ≤ bound ∧ Numeral n s := by
  simp only [unsigned?, Option.filter_eq_some_iff, decide_eq_true_eq, value?_eq_some_iff]
  rw [and_comm]
  refine and_congr_right fun _ => ?_
  constructor
  · rintro ⟨zeros, hbody⟩
    split at hbody
    · rw [hbody]
      exact .plus zeros
    · rw [hbody]
      exact .bare zeros
  · intro h
    cases h with
    | bare zeros =>
        refine ⟨zeros, ?_⟩
        split
        · rename_i rest hplus
          have hdigit := isDigit_of_mem_padded (hplus ▸ List.mem_cons_self : '+' ∈ padded zeros n)
          exact absurd hdigit (by decide)
        · rfl
    | plus zeros => exact ⟨zeros, rfl⟩

end DnsFilter.Text.Decimal
