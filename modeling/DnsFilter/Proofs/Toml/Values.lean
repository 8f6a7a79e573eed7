import DnsFilter.Proofs.Toml.Atoms
import DnsFilter.Proofs.Toml.QuoteForms

/-! Values are read again wherever one may stand. The text they are read with may come to differ in
inline tables, whose entries are brought together, and stands for the same value. -/

namespace DnsFilter.Toml

/-- A character a value may begin with. -/
def OpensValue (c : Char) : Prop := ¬ Atom.isEnd c ∨ c = '"' ∨ c = '\'' ∨ c = '[' ∨ c = '\x7b'

instance : DecidablePred OpensValue :=
  fun _ => inferInstanceAs (Decidable (_ ∨ _ ∨ _ ∨ _ ∨ _))

theorem OpensValue.ne {c d : Char} (h : OpensValue c) (hd : ¬ OpensValue d) : c ≠ d :=
  fun hcd => hd (hcd ▸ h)

theorem OpensValue.not_isSpace {c : Char} (h : OpensValue c) : ¬ isSpace c := by
  intro hs
  obtain rfl | rfl : c = ' ' ∨ c = '\t' := by simpa [isSpace] using hs
  all_goals exact absurd h (by decide)

theorem OpensValue.stops {c : Char} (h : OpensValue c) : Stops false c :=
  ⟨h.ne (by decide), h.ne (by decide), h.not_isSpace, h.ne (by decide)⟩

/-- A text that is read as a value with brackets in it at most `depth` deep, whatever stands behind
it that may follow one. -/
structure SpellsValue (depth : Nat) (v : Value) (text : Text) : Prop where
  opens : ∃ c t, text = c :: t ∧ OpensValue c
  reads : ∀ n rest, text.length < n → Follows rest →
    ∃ text', value? n depth (text ++ rest) = some (v, text', rest)

/-! ### Values without brackets -/

theorem value?_eq_plain? {c : Char} (hc : c ≠ '[' ∧ c ≠ '\x7b') (n depth : Nat) (s : Text) :
    value? n depth (c :: s) = plain? (c :: s) := by
  cases depth with
  | zero => rfl
  | succ depth =>
      rw [value?]
      · exact fun _ h => hc.1 (List.cons.inj h).1
      · exact fun _ h => hc.2 (List.cons.inj h).1

theorem spellsValue_of_plain {depth : Nat} {v : Value} {text : Text}
    (hopens : ∃ c t, text = c :: t ∧ OpensValue c ∧ c ≠ '[' ∧ c ≠ '\x7b')
    (hreads : ∀ rest, Follows rest → plain? (text ++ rest) = some (v, text, rest)) :
    SpellsValue depth v text := by
  obtain ⟨c, t, rfl, hc, hbracket⟩ := hopens
  refine ⟨⟨c, t, rfl, hc⟩, fun n rest _ hr => ⟨c :: t, ?_⟩⟩
  exact (value?_eq_plain? hbracket n depth _).trans (hreads rest hr)

theorem spellsValue_of_quotes {body text : Text} (h : Quoted.Quotes body text) (depth : Nat) :
    SpellsValue depth (.string body) text := by
  obtain ⟨c, t, htext, hc⟩ := h.opens
  refine spellsValue_of_plain ⟨c, t, htext, ?_⟩ fun rest hr => ?_
  · rcases hc with rfl | rfl <;> decide
  · simp [plain?, quoted?, h.reads rest hr.noQuote]

theorem spellsValue_of_atom {v : Value} {text : Text} (h : Atom.Spells v text) (depth : Nat) :
    SpellsValue depth v text := by
  obtain ⟨c, t, htext, hc⟩ := h.opens
  have hne : ∀ d, Atom.isEnd d → c ≠ d := fun d hd hcd => hc (hcd ▸ hd)
  refine spellsValue_of_plain ⟨c, t, htext, .inl hc, hne _ (by decide), hne _ (by decide)⟩
    fun rest hr => ?_
  have hread := h.reads rest hr
  rw [htext] at hread ⊢
  simp [plain?, quoted?, Quoted.read?_eq_none (hne _ (by decide)) (hne _ (by decide)), ← hread]

/-! ### Arrays -/

/-- A gap that ends where a value begins. -/
def GapBefore (g text : Text) : Prop := ∃ after, GapText false after g ∧ Begins (Stops after) text

/-- A text that is read as the elements of an array up to its closing bracket. -/
def SpellsElements (depth : Nat) (items : List Value) (text : Text) : Prop :=
  ∀ n count rest, text.length < n → text.length < count →
    ∃ text', elements? (value? n depth) count (text ++ rest) = some (items, text', rest)

variable {depth : Nat} {v : Value} {items : List Value} {g before after text : Text}

theorem GapBefore.gap (hg : GapBefore g text) (hne : text ≠ []) (rest : Text) :
    gap false (g ++ (text ++ rest)) = (g, text ++ rest) := by
  obtain ⟨after, hg, hstops⟩ := hg
  refine gap_append hg ?_
  match text with
  | [] => exact absurd rfl hne
  | c :: text => simpa using hstops

/-- One element, and what its end decides. -/
theorem elements?_eq (hb : GapBefore before text) (hv : SpellsValue depth v text)
    (ha : IsGap after) {c : Char} (hc : c = ']' ∨ c = ',') {n : Nat} (hn : text.length < n)
    (count : Nat) (rest : Text) :
    ∃ text', elements? (value? n depth) (count + 1) (before ++ text ++ after ++ c :: rest) =
      if c = ']' then some ([v], before ++ text' ++ after ++ [']'], rest)
      else (elements? (value? n depth) count rest).map fun more =>
        (v :: more.1, before ++ text' ++ after ++ ',' :: more.2.1, more.2.2) := by
  obtain ⟨d, t, htext, hd⟩ := hv.opens
  have hend : ∀ rest', text ++ (after ++ c :: rest) ≠ ']' :: rest' := by
    rw [htext]
    exact fun rest' h => hd.ne (by decide) (List.cons.inj h).1
  have hfollows : Follows (after ++ c :: rest) := by
    refine .gap ha (.cons ?_ ?_)
    · rcases hc with rfl | rfl <;> decide
    · rintro rfl
      exact absurd hc (by decide)
  have hstops : Begins (Stops false) (c :: rest) := by
    rcases hc with rfl | rfl <;> simp [Stops, isSpace]
  obtain ⟨text', hread⟩ := hv.reads n _ hn hfollows
  refine ⟨text', ?_⟩
  simp only [List.append_assoc]
  rw [elements?]
  simp only [hb.gap (by simp [htext]), hread, Option.bind_eq_bind, Option.bind_some,
    gap_append ha hstops]
  rcases hc with rfl | rfl
  · simp
  · simp only [List.append_assoc, Char.reduceEq, if_false, Option.map_eq_bind]
    rfl

theorem spellsElements_nil (hg : IsGap g) : SpellsElements depth [] (g ++ [']']) := by
  intro n count rest _ hcount
  obtain ⟨count, rfl⟩ := Nat.exists_eq_add_of_lt (Nat.zero_lt_of_lt hcount)
  have hgap : gap false (g ++ ']' :: rest) = (g, ']' :: rest) :=
    gap_append hg (by simp [Stops, isSpace])
  exact ⟨g ++ [']'], by simp [elements?, hgap]⟩

theorem spellsElements_last (hb : GapBefore before text) (hv : SpellsValue depth v text)
    (ha : IsGap after) : SpellsElements depth [v] (before ++ text ++ after ++ [']']) := by
  intro n count rest hn hcount
  obtain ⟨count, rfl⟩ := Nat.exists_eq_add_of_lt (Nat.zero_lt_of_lt hcount)
  simp only [List.length_append] at hn
  obtain ⟨text', hread⟩ := elements?_eq hb hv ha (.inl rfl) (show text.length < n by omega) count
    rest
  exact ⟨_, by simpa using hread⟩

theorem spellsElements_more {others : Text} (hb : GapBefore before text)
    (hv : SpellsValue depth v text) (ha : IsGap after) (hmore : SpellsElements depth items others) :
    SpellsElements depth (v :: items) (before ++ text ++ after ++ ',' :: others) := by
  intro n count rest hn hcount
  obtain ⟨count, rfl⟩ := Nat.exists_eq_add_of_lt (Nat.zero_lt_of_lt hcount)
  simp only [List.length_append, List.length_cons] at hn hcount
  obtain ⟨others', hothers⟩ := hmore n count rest (by omega) (by omega)
  obtain ⟨text', hread⟩ := elements?_eq hb hv ha (.inr rfl) (show text.length < n by omega) count
    (others ++ rest)
  exact ⟨_, by simpa [hothers] using hread⟩

theorem spellsValue_array (h : SpellsElements depth items text) :
    SpellsValue (depth + 1) (.array items) ('[' :: text) := by
  refine ⟨⟨'[', text, rfl, by decide⟩, fun n rest hn _ => ?_⟩
  rw [List.length_cons] at hn
  obtain ⟨text', hread⟩ := h n n rest (by omega) (by omega)
  exact ⟨'[' :: text', by simp [value?, hread]⟩

end DnsFilter.Toml
