import DnsFilter.Cache.Key
import DnsFilter.Proofs.Text.Numerals

/-! Reading record types. A text is read exactly if, but for the size of its letters, it is the name of a
type or `TYPE` and a numeral. A type with a name could also be given by its number alone, and answers
stored under the one would not be found under the other; no text reads as the second of these. Main
statement: which texts are read, and that what they read as is told by its number. -/

namespace DnsFilter.RecordType

open Text.Decimal (Numeral padded)

/-- Texts that differ at most in the size of ASCII letters. -/
def SameLetters (s t : String) : Prop := s.toList.map Char.toUpper = t.toList.map Char.toUpper

/-- The ways to write a type in capital letters. -/
inductive Spelling : RecordType → String → Prop
  | name {t : RecordType} : t ∈ named → Spelling t t.name
  | number {n : Nat} {numeral : List Char} : n ≤ 65535 → Numeral n numeral →
      Spelling (ofCode n.toUInt16) ("TYPE" ++ String.ofList numeral)

/-! ### Numbers and types -/

@[simp] theorem code_ofCode (code : UInt16) : (ofCode code).code = code := by
  unfold ofCode
  split <;> rfl

theorem ofCode_code_of_mem_named : ∀ t ∈ named, ofCode t.code = t := by decide

theorem mem_named_or_eq_other (r : RecordType) : r ∈ named ∨ ∃ code, r = .other code := by
  cases r
  case other code => exact .inr ⟨code, rfl⟩
  all_goals exact .inl (by decide)

theorem Spelling.ofCode_code {r : RecordType} {w : String} (h : Spelling r w) :
    ofCode r.code = r := by
  cases h with
  | name hmem => exact ofCode_code_of_mem_named r hmem
  | number => rw [code_ofCode]

/-- Of types that numbers stand for, no two have the same number. -/
theorem code_inj {r r' : RecordType} (h : ofCode r.code = r) (h' : ofCode r'.code = r') :
    r.code = r'.code ↔ r = r' := by
  constructor
  · intro hcode
    rw [← h, hcode, h']
  · rintro rfl
    rfl

/-! ### What is read -/

theorem ofName?_name : ∀ t ∈ named, ofName? t.name = some t := by decide

theorem of_ofName? {t : RecordType} {w : String} (h : ofName? w = some t) :
    t ∈ named ∧ t.name = w := by
  unfold ofName? at h
  split at h
  all_goals cases h
  all_goals exact ⟨by decide, rfl⟩

theorem ofName?_eq_some_iff {t : RecordType} {w : String} :
    ofName? w = some t ↔ t ∈ named ∧ t.name = w := by
  refine ⟨of_ofName?, ?_⟩
  rintro ⟨hmem, rfl⟩
  exact ofName?_name t hmem

theorem map_toUpper_name : ∀ t ∈ named, t.name.toList.map Char.toUpper = t.name.toList := by decide

/-- No name begins as a number does. -/
theorem not_type_prefix_name : ∀ t ∈ named, ¬ "TYPE".toList <+: t.name.toList := by decide

theorem ofName?_type (digits : List Char) :
    ofName? (String.ofList ("TYPE".toList ++ digits)) = none := by
  rw [Option.eq_none_iff_forall_ne_some]
  intro t ht
  obtain ⟨hmem, hname⟩ := ofName?_eq_some_iff.mp ht
  refine not_type_prefix_name t hmem ⟨digits, ?_⟩
  rw [hname]
  exact String.toList_ofList.symm

theorem toUpper_eq_self {c : Char} (h : c.isDigit = true) : c.toUpper = c := by
  obtain ⟨d, hd, rfl⟩ := Text.Decimal.exists_digitChar h
  revert d
  decide

theorem map_toUpper_padded (zeros n : Nat) :
    (padded zeros n).map Char.toUpper = padded zeros n := by
  calc
    (padded zeros n).map Char.toUpper = (padded zeros n).map id :=
      List.map_congr_left fun c hc => toUpper_eq_self (Text.Decimal.isDigit_of_mem_padded hc)
    _ = padded zeros n := List.map_id _

theorem map_toUpper_numeral {n : Nat} {numeral : List Char} (h : Numeral n numeral) :
    numeral.map Char.toUpper = numeral := by
  cases h with
  | bare zeros => exact map_toUpper_padded zeros n
  | plus zeros => exact congrArg ('+' :: ·) (map_toUpper_padded zeros n)

theorem map_toUpper_type {n : Nat} {numeral : List Char} (h : Numeral n numeral) :
    ("TYPE" ++ String.ofList numeral).toList.map Char.toUpper = "TYPE".toList ++ numeral := by
  have hdigits : (String.ofList numeral).toList = numeral := String.toList_ofList
  rw [String.toList_append, hdigits, List.map_append, map_toUpper_numeral h]
  rfl

theorem ofText?_congr {s t : String} (h : SameLetters s t) : ofText? s = ofText? t := by
  simp only [ofText?]
  rw [h]

theorem ofText?_of_spelling {r : RecordType} {w : String} (h : Spelling r w) :
    ofText? w = some r := by
  simp only [ofText?]
  cases h with
  | name hmem => rw [map_toUpper_name r hmem, String.ofList_toList, ofName?_name r hmem]
  | @number n numeral hbound hnumeral =>
      rw [map_toUpper_type hnumeral, ofName?_type]
      change (Text.Decimal.unsigned? 0xffff numeral).map _ = _
      rw [Text.Decimal.unsigned?_eq_some_iff.mpr ⟨hbound, hnumeral⟩]
      rfl

theorem exists_spelling {r : RecordType} {s : String} (h : ofText? s = some r) :
    ∃ w, Spelling r w ∧ SameLetters s w := by
  simp only [ofText?] at h
  split at h
  next hread =>
    cases h
    obtain ⟨hmem, hname⟩ := ofName?_eq_some_iff.mp hread
    refine ⟨r.name, .name hmem, ?_⟩
    rw [SameLetters, map_toUpper_name r hmem, hname, String.toList_ofList]
  next =>
    split at h
    next digits hupper =>
      obtain ⟨n, hn, rfl⟩ := Option.map_eq_some_iff.mp h
      obtain ⟨hbound, hnumeral⟩ := Text.Decimal.unsigned?_eq_some_iff.mp hn
      refine ⟨"TYPE" ++ String.ofList digits, .number hbound hnumeral, ?_⟩
      rw [SameLetters, map_toUpper_type hnumeral, hupper]
      rfl
    next => cases h

theorem ofText?_eq_some_iff {r : RecordType} {s : String} :
    ofText? s = some r ↔ ∃ w, Spelling r w ∧ SameLetters s w := by
  constructor
  · exact exists_spelling
  · rintro ⟨w, hw, hletters⟩
    rw [ofText?_congr hletters, ofText?_of_spelling hw]

theorem ofCode_code_of_ofText? {r : RecordType} {s : String} (h : ofText? s = some r) :
    ofCode r.code = r := by
  obtain ⟨w, hw, -⟩ := exists_spelling h
  exact hw.ofCode_code

/-! ### The written form -/

theorem text_of_mem_named : ∀ t ∈ named, t.text = t.name := by decide

theorem text_other (code : UInt16) :
    (other code).text = "TYPE" ++ String.ofList (padded 0 code.toNat) := by
  have happend := @String.ofList_append "TYPE".toList (padded 0 code.toNat)
  rw [String.ofList_toList] at happend
  exact happend

/-- A type that a number stands for is written in a way that can be read. -/
theorem spelling_text {r : RecordType} (h : ofCode r.code = r) : Spelling r r.text := by
  rcases mem_named_or_eq_other r with hmem | ⟨code, rfl⟩
  · rw [text_of_mem_named r hmem]
    exact .name hmem
  · have hcode : code.toNat.toUInt16 = code := UInt16.ofNat_toNat
    have hother : ofCode code = .other code := h
    have hnumber := Spelling.number (Nat.le_of_lt_succ code.toNat_lt) (.bare 0)
    rw [hcode, hother, ← text_other] at hnumber
    exact hnumber

/-- Which texts are read and as what, and that a number tells all about what they are read as. -/
theorem reading_is_canonical (s : String) :
    ((ofText? s).isSome = true ↔ ∃ r w, Spelling r w ∧ SameLetters s w) ∧
      ∀ r, ofText? s = some r →
        (∃ w, Spelling r w ∧ SameLetters s w) ∧ ofCode r.code = r ∧ ofText? r.text = some r ∧
          ∀ s' r', ofText? s' = some r' → ∀ domain,
            (r.code = r'.code ↔ Cache.Key.of domain r = Cache.Key.of domain r') := by
  constructor
  · rw [Option.isSome_iff_exists]
    exact exists_congr fun r => ofText?_eq_some_iff
  · intro r hr
    have hcanonical := ofCode_code_of_ofText? hr
    refine ⟨exists_spelling hr, hcanonical, ofText?_of_spelling (spelling_text hcanonical), ?_⟩
    intro s' r' hr' domain
    rw [code_inj hcanonical (ofCode_code_of_ofText? hr'), Cache.Key.of, Cache.Key.of,
      Cache.Key.mk.injEq, eq_self, true_and]

theorem reading_is_canonical_a :
    ofText? "type+0001" = some .a ∧ ofText? "a" = some .a ∧ ofCode (code .a) = .a ∧
      ofText? (text .a) = some .a ∧ Cache.Key.of "ads.com" .a = Cache.Key.of "ads.com" .a := by
  have hnumber : ofText? "type+0001" = some .a := by decide
  have hname : ofText? "a" = some .a := by decide
  obtain ⟨-, hcanonical, htext, hkey⟩ := (reading_is_canonical "type+0001").2 .a hnumber
  exact ⟨hnumber, hname, hcanonical, htext, (hkey "a" .a hname "ads.com").mp rfl⟩

-- the type with a name, given by its number alone, would have keys of its own
example : Cache.Key.of "ads.com" (.other 1) ≠ Cache.Key.of "ads.com" .a := by decide

end DnsFilter.RecordType
