import DnsFilter.Proofs.Toml.Spacing
import DnsFilter.Toml.Writer
import Mathlib.Data.List.Basic

/-! Values without quotes or brackets are read again wherever a value may end, and numbers and truth
values are read back from what is written for them. -/

namespace DnsFilter.Toml

theorem not_isDigit_of_isEnd {c : Char} (h : Atom.isEnd c) : ¬ c.isDigit := by
  simp only [Atom.isEnd, isSpace, List.contains_eq_mem, List.mem_cons, Bool.or_eq_true,
    beq_iff_eq, decide_eq_true_eq, List.not_mem_nil, or_false] at h
  rcases h with (rfl | rfl) | rfl | rfl | rfl | rfl | rfl | rfl | rfl | rfl | rfl | rfl | rfl <;>
    decide

/-! ### Behind a value -/

/-- What may stand behind a value: something that ends it, but no quote, and no digit behind one
space, where a time of day might follow a date. -/
structure Follows (rest : Text) : Prop where
  ends : Begins (fun c => Atom.isEnd c ∧ c ≠ '"' ∧ c ≠ '\'') rest
  noTime : ∀ t, rest = ' ' :: t → Begins (fun c => ¬ c.isDigit) t

namespace Follows

theorem cons {c : Char} {rest : Text} (hc : Atom.isEnd c ∧ c ≠ '"' ∧ c ≠ '\'')
    (hr : c = ' ' → Begins (fun c => ¬ c.isDigit) rest) : Follows (c :: rest) := by
  refine ⟨by simpa using hc, ?_⟩
  rintro t ht
  obtain ⟨rfl, rfl⟩ := List.cons.inj ht
  exact hr rfl

theorem noQuote {rest : Text} (h : Follows rest) : Begins (fun c => c ≠ '"' ∧ c ≠ '\'') rest :=
  h.ends.imp fun _ hc => hc.2

theorem noDigit {rest : Text} (h : Follows rest) : Begins (fun c => ¬ c.isDigit) rest :=
  h.ends.imp fun _ hc => not_isDigit_of_isEnd hc.1

/-- A gap may come between a value and what follows it. -/
theorem gap {g rest : Text} {after : Bool} (hg : GapText false after g) (hr : Follows rest) :
    Follows (g ++ rest) := by
  generalize hb : false = before at hg
  induction hg with
  | nil => exact hr
  | line => exact cons (by decide) (fun h => absurd h (by decide))
  | space hc _ ih =>
      refine cons ?_ fun _ => (ih rfl).noDigit
      obtain rfl | rfl : _ = ' ' ∨ _ = '\t' := by simpa [isSpace] using hc
      all_goals decide
  | hash => exact cons (by decide) (fun h => absurd h (by decide))
  | comment => cases hb

end Follows

namespace Atom

/-! ### Reading again -/

/-- A text that is read as a value, whatever stands behind it that may follow one. -/
structure Spells (v : Value) (text : Text) : Prop where
  opens : ∃ c t, text = c :: t ∧ ¬ isEnd c
  reads : ∀ rest, Follows rest → read? (text ++ rest) = some (v, text, rest)

theorem span_isEnd {s rest : Text} (hs : ∀ c ∈ s, ¬ isEnd c)
    (hr : Begins (fun c => isEnd c) rest) : (s ++ rest).span (!isEnd ·) = (s, rest) :=
  span_append (by simpa using hs) (hr.imp fun c hc => by simp [hc])

theorem split_append {s rest : Text} (hs : ∀ c ∈ s, ¬ isEnd c) (hr : Follows rest) :
    split (s ++ rest) = (s, rest) := by
  have hspan := span_isEnd hs (hr.ends.imp fun _ hc => hc.1)
  simp only [split, hspan]
  split
  next d t =>
    have hd : d.isDigit = false := by simpa using hr.noTime _ rfl
    simp [hd]
  next => rfl

theorem split_append_time {date time rest : Text} (hdate : ∀ c ∈ date, ¬ isEnd c)
    (hd : date? date = some []) (htime : ∀ c ∈ time, ¬ isEnd c)
    (hdigit : ∃ d t, time = d :: t ∧ d.isDigit) (hr : Follows rest) :
    split (date ++ ' ' :: time ++ rest) = (date ++ ' ' :: time, rest) := by
  obtain ⟨d, t, rfl, hdigit⟩ := hdigit
  have hspan : (date ++ (' ' :: d :: (t ++ rest))).span (!isEnd ·) =
      (date, ' ' :: d :: (t ++ rest)) := span_isEnd hdate (by simp [isEnd, isSpace])
  have hspan' : (d :: (t ++ rest)).span (!isEnd ·) = (d :: t, rest) :=
    span_isEnd htime (hr.ends.imp fun _ hc => hc.1)
  simp only [split, List.append_assoc, List.cons_append, hspan, hd, hdigit, List.drop_succ_cons,
    List.drop_zero, hspan', BEq.rfl, Bool.and_self, if_true]

/-- What was split off is split off again. -/
theorem split_again {s text rest : Text} (h : split s = (text, rest)) :
    s = text ++ rest ∧ (∀ c t, text = c :: t → ¬ isEnd c) ∧
      ∀ rest', Follows rest' → split (text ++ rest') = (text, rest') := by
  rw [split] at h
  generalize hspan : s.span (!isEnd ·) = parts at h
  obtain ⟨head, more⟩ := parts
  obtain ⟨rfl, hhead, -⟩ := of_span hspan
  replace hhead : ∀ c ∈ head, ¬ isEnd c := by simpa using hhead
  have hshort : (head, more) = (text, rest) → head ++ more = text ++ rest ∧
      (∀ c t, text = c :: t → ¬ isEnd c) ∧
        ∀ rest', Follows rest' → split (text ++ rest') = (text, rest') := by
    intro heq
    obtain ⟨rfl, rfl⟩ := Prod.mk.inj heq
    exact ⟨rfl, fun c t hc => hhead c (hc ▸ List.mem_cons_self), fun _ => split_append hhead⟩
  dsimp only at h
  split at h
  next d tail =>
    split at h
    next hdate =>
      rw [List.drop_succ_cons, List.drop_zero] at h
      generalize hspan' : (d :: tail).span (!isEnd ·) = parts at h
      obtain ⟨time, r⟩ := parts
      obtain ⟨rfl, rfl⟩ := Prod.mk.inj h
      obtain ⟨htail, htime, hr⟩ := of_span hspan'
      replace htime : ∀ c ∈ time, ¬ isEnd c := by simpa using htime
      obtain ⟨hdate, hdigit⟩ : date? head = some [] ∧ d.isDigit = true := by simpa using hdate
      have hfirst : ∃ d t, time = d :: t ∧ d.isDigit := by
        cases time with
        | nil =>
            subst htail
            exact absurd hdigit (not_isDigit_of_isEnd (by simpa using hr))
        | cons e t => exact ⟨e, t, rfl, (List.cons.inj htail).1 ▸ hdigit⟩
      refine ⟨by simp [htail], fun c t hc => ?_, fun rest' hr' =>
        split_append_time hhead hdate htime hfirst hr'⟩
      cases head with
      | nil => simp [date?] at hdate
      | cons e head => exact hhead c ((List.cons.inj hc).1 ▸ List.mem_cons_self)
    next => exact hshort h
  next => exact hshort h

theorem classify?_nil : classify? [] = none := by decide

theorem spells_of_read? {s text rest : Text} {v : Value} (h : read? s = some (v, text, rest)) :
    s = text ++ rest ∧ Spells v text := by
  rw [read?] at h
  generalize hsplit : split s = parts at h
  obtain ⟨text', rest'⟩ := parts
  obtain ⟨v', hv, hparts⟩ := Option.map_eq_some_iff.1 h
  obtain ⟨rfl, rfl, rfl⟩ : v' = v ∧ text' = text ∧ rest' = rest := by simpa using hparts
  obtain ⟨hs, hopens, hagain⟩ := split_again hsplit
  refine ⟨hs, ?_, fun rest hr => ?_⟩
  · cases text' with
    | nil => rw [classify?_nil] at hv; cases hv
    | cons c t => exact ⟨c, t, rfl, hopens c t rfl⟩
  · simp [read?, hagain rest hr, hv]

/-! ### Numbers and truth values -/

theorem spells_of_classify? {text : Text} {v : Value} (htext : ∀ c ∈ text, ¬ isEnd c)
    (hv : classify? text = some v) : Spells v text := by
  refine ⟨?_, fun rest hr => by simp [read?, split_append htext hr, hv]⟩
  cases text with
  | nil => rw [classify?_nil] at hv; cases hv
  | cons c t => exact ⟨c, t, rfl, htext c List.mem_cons_self⟩

theorem ungroup?_of_digits {ds : Text} (hds : ∀ c ∈ ds, c.isDigit) (afterDigit : Bool)
    (hne : ds = [] → afterDigit) : ungroup? Char.isDigit afterDigit ds = some ds := by
  induction ds generalizing afterDigit with
  | nil => simp [ungroup?, hne]
  | cons c ds ih =>
      have hc : c.isDigit := hds c List.mem_cons_self
      rw [ungroup?, if_pos hc, ih (fun d hd => hds d (List.mem_cons_of_mem _ hd)) true fun _ => rfl]
      · rfl
      · rintro rfl
        exact absurd hc (by decide)

theorem digitsValue_eq {ds : Text} (hds : ∀ c ∈ ds, c.isDigit) :
    digitsValue ds = Nat.ofDigitChars 10 ds 0 := by
  rw [digitsValue, Nat.ofDigitChars_eq_foldl]
  refine List.foldl_ext _ _ 0 fun n c hc => ?_
  rw [digitValue, if_pos (hds c hc)]
  rfl

theorem isDigit_of_mem_naturalText {n : Nat} {c : Char} (h : c ∈ naturalText n) : c.isDigit :=
  Nat.isDigit_of_mem_toDigits (by decide) (by decide) h

theorem naturalText_ne_nil (n : Nat) : naturalText n ≠ [] := Nat.toDigits_ne_nil

/-- Only zero is written with a zero in front. -/
theorem begins_naturalText {n : Nat} (h : n ≠ 0) : Begins (· ≠ '0') (naturalText n) := by
  induction n using Nat.strong_induction_on with
  | _ n ih =>
      unfold naturalText Text.Decimal.digits at ih ⊢
      rw [Nat.toDigits_eq_if (by decide)]
      split
      next => simpa [Nat.digitChar_eq_zero] using h
      next hlarge =>
        have hbegins := ih (n / 10) (by omega) (by omega)
        cases hds : Nat.toDigits 10 (n / 10) with
        | nil => exact absurd hds Nat.toDigits_ne_nil
        | cons d ds => simpa [hds] using hbegins

theorem decimalDigits?_naturalText (n : Nat) :
    decimalDigits? (naturalText n) = some (naturalText n) := by
  have hgroup := ungroup?_of_digits (fun _ => isDigit_of_mem_naturalText) false
    fun h => absurd h (naturalText_ne_nil n)
  rw [decimalDigits?, hgroup]
  by_cases hn : n = 0
  · subst hn
    rfl
  · have hbegins := begins_naturalText hn
    cases hds : naturalText n with
    | nil => rfl
    | cons d ds =>
        have hd : d ≠ '0' := by simpa [hds] using hbegins
        simp [hd]

theorem digitsValue_naturalText (n : Nat) : digitsValue (naturalText n) = n := by
  rw [digitsValue_eq fun _ => isDigit_of_mem_naturalText]
  exact Nat.ofDigitChars_ten_toDigits

theorem unsigned?_naturalText (n : Nat) : unsigned? (naturalText n) = some n := by
  by_cases hn : n = 0
  · subst hn
    rfl
  · have hbegins := begins_naturalText hn
    rw [unsigned?, decimalDigits?_naturalText, Option.map_some, digitsValue_naturalText]
    all_goals
      intro rest hds
      simp [hds] at hbegins

theorem integer?_naturalText (n : Nat) : integer? (naturalText n) = some (n : Int) := by
  have hdigit := fun c => isDigit_of_mem_naturalText (n := n) (c := c)
  rw [integer?, unsigned?_naturalText]
  · rfl
  all_goals
    intro rest hds
    exact absurd (hdigit _ (hds ▸ List.mem_cons_self)) (by decide)

theorem integer?_integerText (n : Int) : integer? (integerText n) = some n := by
  rw [integerText]
  split
  next hneg =>
    rw [integer?, decimalDigits?_naturalText, Option.map_some, digitsValue_naturalText]
    exact congrArg some (by omega)
  next hpos =>
    rw [integer?_naturalText]
    exact congrArg some (by omega)

theorem isDigit_or_minus {n : Int} {c : Char} (h : c ∈ integerText n) : c.isDigit ∨ c = '-' := by
  rw [integerText] at h
  split at h
  · exact (List.mem_cons.1 h).elim .inr fun h => .inl (isDigit_of_mem_naturalText h)
  · exact .inl (isDigit_of_mem_naturalText h)

theorem spells_integerText (n : Int) : Spells (.integer n) (integerText n) := by
  have hword : ∀ c, c = 't' ∨ c = 'f' ∨ isEnd c → c ∉ integerText n := by
    rintro c hc hmem
    rcases isDigit_or_minus hmem with hdigit | rfl
    · rcases hc with rfl | rfl | hend
      · exact absurd hdigit (by decide)
      · exact absurd hdigit (by decide)
      · exact not_isDigit_of_isEnd hend hdigit
    · exact absurd hc (by decide)
  refine spells_of_classify? (fun c hc hend => hword c (.inr (.inr hend)) hc) ?_
  have htrue : integerText n ≠ "true".toList := fun h => hword 't' (by simp) (h ▸ by decide)
  have hfalse : integerText n ≠ "false".toList := fun h => hword 'f' (by simp) (h ▸ by decide)
  rw [classify?, if_neg htrue, if_neg hfalse, integer?_integerText]

theorem spells_booleanText (b : Bool) : Spells (.boolean b) (booleanText b) := by
  have htext : (booleanText b).all (!isEnd ·) := by cases b <;> decide
  refine spells_of_classify? (by simpa using htext) ?_
  cases b <;> rfl

end Atom

end DnsFilter.Toml
