import DnsFilter.Proofs.Toml.Spacing

/-! Quoted strings read back. What was read of a string is read again the same wherever no further
quote follows, and every text is read back from the form it is written in. -/

namespace DnsFilter.Toml.Quoted

open Reading

/-- A text that ends in its closing quotes and that a reader takes for the string `body`, whatever
but a quote stands behind it. -/
structure Spells (quotes : Text) (reader : Text → Option Reading) (body text : Text) : Prop where
  closed : quotes <:+ text
  reads : ∀ rest, Begins (fun c => c ≠ '"' ∧ c ≠ '\'') rest →
    reader (text ++ rest) = some ⟨body, text, rest⟩

/-- What was read is the beginning of the text, and is read again. -/
def Repeats (quotes : Text) (reader : Text → Option Reading) (s : Text) (r : Reading) : Prop :=
  s = r.text ++ r.rest ∧ Spells quotes reader r.body r.text

/-! ### Steps of the readers -/

theorem of_after {body text : Text} {r? : Option Reading} {r : Reading}
    (h : after body text r? = some r) :
    ∃ r', r? = some r' ∧ r = ⟨body ++ r'.body, text ++ r'.text, r'.rest⟩ := by
  obtain ⟨r', hr', rfl⟩ := Option.map_eq_some_iff.1 h
  exact ⟨r', hr', rfl⟩

theorem of_afterCode {letter : Char} {digits : Text} {r? : Option Reading} {r : Reading}
    (h : afterCode letter digits r? = some r) :
    ∃ c r', character? digits = some c ∧ r? = some r' ∧
      r = ⟨c :: r'.body, '\\' :: letter :: digits ++ r'.text, r'.rest⟩ := by
  obtain ⟨c, hc, h⟩ := Option.bind_eq_some_iff.1 h
  obtain ⟨r', hr', rfl⟩ := of_after h
  exact ⟨c, r', hc, hr', rfl⟩

theorem of_afterEscape {letter : Char} {r? : Option Reading} {r : Reading}
    (h : afterEscape letter r? = some r) :
    ∃ c r', escape? letter = some c ∧ r? = some r' ∧
      r = ⟨c :: r'.body, '\\' :: letter :: r'.text, r'.rest⟩ := by
  obtain ⟨c, hc, h⟩ := Option.bind_eq_some_iff.1 h
  obtain ⟨r', hr', rfl⟩ := of_after h
  exact ⟨c, r', hc, hr', rfl⟩

/-- The letters of escapes are not those that announce a code point, nor do they end a line. -/
theorem letter_of_escape? {e c : Char} (h : escape? e = some c) :
    (e ≠ 'x' ∧ e ≠ 'u' ∧ e ≠ 'U') ∧ ¬ isSpace e ∧ e ≠ '\n' ∧ e ≠ '\r' := by
  refine ⟨⟨?_, ?_, ?_⟩, fun hs => ?_, ?_, ?_⟩
  case refine_4 =>
    obtain rfl | rfl : e = ' ' ∨ e = '\t' := by simpa [isSpace] using hs
    all_goals simp [escape?] at h
  all_goals (rintro rfl; simp [escape?] at h)

namespace Spells

/-- The code point of a character, which both kinds of double quotes have. -/
theorem code {quotes body text digits : Text} {reader more : Text → Option Reading}
    {letter c : Char} (hstep : ∀ rest, reader ('\\' :: letter :: digits ++ rest) =
      afterCode letter digits (more rest))
    (hc : character? digits = some c) (h : Spells quotes more body text) :
    Spells quotes reader (c :: body) ('\\' :: letter :: digits ++ text) := by
  refine ⟨h.closed.trans (List.suffix_append _ _), fun rest hr => ?_⟩
  rw [List.append_assoc, hstep, h.reads rest hr]
  simp [afterCode, hc, after]

end Spells

/-! ### One double quote -/

namespace Spells

variable {body text : Text} {c e : Char}

theorem basic_close : Spells ['"'] basic? [] ['"'] :=
  ⟨List.suffix_refl _, fun rest _ => by simp [basic?, ending]⟩

theorem basic_escape (hc : escape? e = some c) (h : Spells ['"'] basic? body text) :
    Spells ['"'] basic? (c :: body) ('\\' :: e :: text) := by
  refine ⟨h.closed.trans (List.suffix_append ['\\', e] _), fun rest hr => ?_⟩
  obtain ⟨⟨hx, hu, hU⟩, -⟩ := letter_of_escape? hc
  rw [List.cons_append, List.cons_append, basic?, h.reads rest hr]
  · simp [afterEscape, hc, after]
  · exact fun _ _ _ he => absurd he hx
  · exact fun _ _ _ _ _ he => absurd he hu
  · exact fun _ _ _ _ _ _ _ _ _ he => absurd he hU

theorem basic_plain (hc : isPlain c) (hslash : c ≠ '\\') (hquote : c ≠ '"')
    (h : Spells ['"'] basic? body text) : Spells ['"'] basic? (c :: body) (c :: text) := by
  refine ⟨h.closed.trans (List.suffix_cons c _), fun rest hr => ?_⟩
  rw [List.cons_append, basic?, h.reads rest hr]
  · simp [afterPlain, after, hc, hslash]
  · exact hquote
  all_goals intros; contradiction

end Spells

theorem repeats_basic? {s : Text} {r : Reading} (h : basic? s = some r) :
    Repeats ['"'] basic? s r := by
  fun_induction basic? s generalizing r with
  | case1 => cases h
  | case2 rest =>
      obtain rfl := Option.some.inj h
      exact ⟨rfl, .basic_close⟩
  | case3 a b rest ih =>
      obtain ⟨c, r', hc, hr', rfl⟩ := of_afterCode h
      obtain ⟨rfl, hs⟩ := ih hr'
      exact ⟨rfl, hs.code (fun _ => rfl) hc⟩
  | case4 d₁ d₂ d₃ d₄ rest ih =>
      obtain ⟨c, r', hc, hr', rfl⟩ := of_afterCode h
      obtain ⟨rfl, hs⟩ := ih hr'
      exact ⟨rfl, hs.code (fun _ => rfl) hc⟩
  | case5 d₁ d₂ d₃ d₄ d₅ d₆ d₇ d₈ rest ih =>
      obtain ⟨c, r', hc, hr', rfl⟩ := of_afterCode h
      obtain ⟨rfl, hs⟩ := ih hr'
      exact ⟨rfl, hs.code (fun _ => rfl) hc⟩
  | case6 e rest _ _ _ ih =>
      obtain ⟨c, r', hc, hr', rfl⟩ := of_afterEscape h
      obtain ⟨rfl, hs⟩ := ih hr'
      exact ⟨rfl, hs.basic_escape hc⟩
  | case7 c rest hquote _ _ _ _ hc ih =>
      obtain ⟨r', hr', rfl⟩ := of_after h
      obtain ⟨rfl, hs⟩ := ih hr'
      obtain ⟨hp, hslash⟩ : isPlain c ∧ c ≠ '\\' := by simpa using hc
      exact ⟨rfl, hs.basic_plain hp hslash hquote⟩
  | case8 => cases h

/-! ### One single quote -/

namespace Spells

variable {body text : Text} {c : Char}

theorem literal_close : Spells ['\''] literal? [] ['\''] :=
  ⟨List.suffix_refl _, fun rest _ => by simp [literal?, ending]⟩

theorem literal_plain (hc : isPlain c) (hquote : c ≠ '\'')
    (h : Spells ['\''] literal? body text) : Spells ['\''] literal? (c :: body) (c :: text) := by
  refine ⟨h.closed.trans (List.suffix_cons c _), fun rest hr => ?_⟩
  rw [List.cons_append, literal?, h.reads rest hr]
  · simp [afterPlain, after, hc]
  · exact hquote

end Spells

theorem repeats_literal? {s : Text} {r : Reading} (h : literal? s = some r) :
    Repeats ['\''] literal? s r := by
  fun_induction literal? s generalizing r with
  | case1 => cases h
  | case2 rest =>
      obtain rfl := Option.some.inj h
      exact ⟨rfl, .literal_close⟩
  | case3 c rest hquote hc ih =>
      obtain ⟨r', hr', rfl⟩ := of_after h
      obtain ⟨rfl, hs⟩ := ih hr'
      exact ⟨rfl, hs.literal_plain hc hquote⟩
  | case4 => cases h

/-! ### Three single quotes -/

/-- Text that does not end a string of three quotes: not two quotes after one. -/
def Continues (quote c : Char) (text : Text) : Prop :=
  c = quote → ∀ t, text ≠ quote :: quote :: t

/-- What stands behind a text that ends in three quotes is not looked at for a quote that might be
the third one. -/
theorem Continues.append {quote c : Char} {text : Text} (h : Continues quote c text)
    (hclosed : [quote, quote, quote] <:+ text) (rest : Text) :
    Continues quote c (text ++ rest) := by
  intro hc t ht
  have hlength : 3 ≤ text.length := hclosed.length_le
  match text, hlength with
  | a :: b :: text', _ =>
      obtain ⟨ha, hb, -⟩ : a = quote ∧ b = quote ∧ text' ++ rest = t := by simpa using ht
      exact h hc text' (by rw [ha, hb])

theorem Continues.of_begins {quote c : Char} {text : Text} (h : Begins (· ≠ quote) text) :
    Continues quote c text := by
  rintro - t rfl
  simp at h

theorem Continues.of_begins_tail {quote c d : Char} {text : Text} (h : Begins (· ≠ quote) text) :
    Continues quote c (d :: text) := by
  rintro - t ht
  rw [(List.cons.inj ht).2] at h
  simp at h

namespace Spells

variable {body text : Text} {c : Char}

theorem literalLines_close (body : Text) (hb : body ∈ [[], ['\''], ['\'', '\'']]) :
    Spells ['\'', '\'', '\''] literalLines? body (body ++ ['\'', '\'', '\'']) := by
  refine ⟨List.suffix_append _ _, fun rest hr => ?_⟩
  have h₁ : ∀ rest', rest = '\'' :: rest' → False := by
    rintro rest' rfl
    simp at hr
  have h₂ : ∀ rest', rest = '\'' :: '\'' :: rest' → False := fun rest' => h₁ _
  simp only [List.mem_cons, List.not_mem_nil, or_false] at hb
  rcases hb with rfl | rfl | rfl <;> simp [literalLines?, ending]

theorem literalLines_return (h : Spells ['\'', '\'', '\''] literalLines? body text) :
    Spells ['\'', '\'', '\''] literalLines? ('\r' :: '\n' :: body) ('\r' :: '\n' :: text) := by
  refine ⟨h.closed.trans (List.suffix_append ['\r', '\n'] _), fun rest hr => ?_⟩
  simp [literalLines?, h.reads rest hr, after]

theorem literalLines_plain (hc : isPlain c ∨ c = '\n') (hmore : Continues '\'' c text)
    (h : Spells ['\'', '\'', '\''] literalLines? body text) :
    Spells ['\'', '\'', '\''] literalLines? (c :: body) (c :: text) := by
  refine ⟨h.closed.trans (List.suffix_cons c _), fun rest hr => ?_⟩
  have hnot := hmore.append h.closed rest
  have hreturn : c ≠ '\r' := by
    rcases hc with hc | rfl
    · exact ne_return_of_isPlain hc
    · decide
  rw [List.cons_append, literalLines?, h.reads rest hr]
  · simp [afterPlain, after, hc]
  · exact fun _ hq ht => hnot hq _ ht
  · exact fun _ hq ht => hnot hq _ ht
  · exact fun _ hq ht => hnot hq _ ht
  · exact fun _ hq => absurd hq hreturn

end Spells

theorem repeats_literalLines? {s : Text} {r : Reading} (h : literalLines? s = some r) :
    Repeats ['\'', '\'', '\''] literalLines? s r := by
  fun_induction literalLines? s generalizing r with
  | case1 => cases h
  | case2 rest | case3 rest _ | case4 rest _ _ =>
      obtain rfl := Option.some.inj h
      exact ⟨rfl, .literalLines_close _ (by simp)⟩
  | case5 rest ih =>
      obtain ⟨r', hr', rfl⟩ := of_after h
      obtain ⟨rfl, hs⟩ := ih hr'
      exact ⟨rfl, hs.literalLines_return⟩
  | case6 c rest _ _ hmore _ hc ih =>
      obtain ⟨r', hr', rfl⟩ := of_after h
      obtain ⟨rfl, hs⟩ := ih hr'
      refine ⟨rfl, hs.literalLines_plain (by simpa using hc) fun hq t ht => ?_⟩
      exact hmore (t ++ r'.rest) hq (congrArg (· ++ r'.rest) ht)
  | case7 => cases h

/-! ### Three double quotes -/

theorem isLineOver_space {c : Char} (hc : isSpace c) (s : Text) :
    isLineOver (c :: s) = isLineOver s := by
  simp [isLineOver, spaces, hc]

theorem isLineOver_of_not_space {c : Char} (hc : ¬ isSpace c) (s : Text) :
    isLineOver (c :: s) = (c == '\n' || (c == '\r' && s.head? == some '\n')) := by
  have h : isLineOver (c :: s) = (afterLineEnd? (c :: s)).isSome := by
    simp [isLineOver, spaces, hc]
  rw [h, afterLineEnd?.eq_def]
  split
  · simp_all
  · simp_all
  · cases s <;> simp_all

/-- Whether a line is over is settled before the first quote. -/
theorem isLineOver_append {s : Text} (h : '"' ∈ s) (rest : Text) :
    isLineOver (s ++ rest) = isLineOver s := by
  induction s with
  | nil => simp at h
  | cons c s ih =>
      by_cases hc : isSpace c
      · have hmem : '"' ∈ s := by
          refine (List.mem_cons.1 h).resolve_left ?_
          rintro rfl
          exact absurd hc (by decide)
        rw [List.cons_append, isLineOver_space hc, isLineOver_space hc, ih hmem]
      · rw [List.cons_append, isLineOver_of_not_space hc, isLineOver_of_not_space hc]
        cases s with
        | nil =>
            obtain rfl : '"' = c := by simpa using h
            simp
        | cons d s => simp

namespace Spells

variable {skipping : Bool} {body text : Text} {c e : Char}

/-- The quotes that several lines stand between. -/
abbrev lineQuotes : Text := ['"', '"', '"']

theorem mem_of_closed (h : lineQuotes <:+ text) : '"' ∈ text := h.subset (by simp)

theorem basicLines_close (body : Text) (hb : body ∈ [[], ['"'], ['"', '"']]) :
    Spells lineQuotes (basicLines? skipping) body (body ++ lineQuotes) := by
  refine ⟨List.suffix_append _ _, fun rest hr => ?_⟩
  have h₁ : ∀ rest', rest = '"' :: rest' → False := by
    rintro rest' rfl
    simp at hr
  have h₂ : ∀ rest', rest = '"' :: '"' :: rest' → False := fun rest' => h₁ _
  simp only [List.mem_cons, List.not_mem_nil, or_false] at hb
  rcases hb with rfl | rfl | rfl <;> simp [basicLines?, ending]

theorem basicLines_return (skipping : Bool) (h : Spells lineQuotes (basicLines? skipping) body text) :
    Spells lineQuotes (basicLines? skipping) (if skipping then body else '\r' :: '\n' :: body)
      ('\r' :: '\n' :: text) := by
  refine ⟨h.closed.trans (List.suffix_append ['\r', '\n'] _), fun rest hr => ?_⟩
  cases skipping <;> simp [basicLines?, h.reads rest hr, after]

theorem basicLines_step (he : e ≠ 'x' ∧ e ≠ 'u' ∧ e ≠ 'U') (rest : Text) :
    basicLines? skipping ('\\' :: e :: rest) =
      if isLineOver (e :: rest) then after [] ['\\'] (basicLines? true (e :: rest))
      else afterEscape e (basicLines? false rest) := by
  obtain ⟨hx, hu, hU⟩ := he
  rw [basicLines?]
  · exact fun _ _ _ he => absurd he hx
  · exact fun _ _ _ _ _ he => absurd he hu
  · exact fun _ _ _ _ _ _ _ _ _ he => absurd he hU

theorem basicLines_escape (hc : escape? e = some c)
    (h : Spells lineQuotes (basicLines? false) body text) :
    Spells lineQuotes (basicLines? skipping) (c :: body) ('\\' :: e :: text) := by
  refine ⟨h.closed.trans (List.suffix_append ['\\', e] _), fun rest hr => ?_⟩
  obtain ⟨hletter, hspace, hline, hreturn⟩ := letter_of_escape? hc
  have hover : isLineOver (e :: (text ++ rest)) = false := by
    simp [isLineOver_of_not_space hspace, hline, hreturn]
  rw [List.cons_append, List.cons_append, basicLines_step hletter, hover, h.reads rest hr]
  simp [afterEscape, hc, after]

/-- A backslash at the end of a line. -/
theorem basicLines_skip (hover : isLineOver text)
    (h : Spells lineQuotes (basicLines? true) body text) :
    Spells lineQuotes (basicLines? skipping) body ('\\' :: text) := by
  refine ⟨h.closed.trans (List.suffix_cons _ _), fun rest hr => ?_⟩
  rw [← isLineOver_append (mem_of_closed h.closed) rest] at hover
  have hread := h.reads rest hr
  cases text with
  | nil => exact absurd (mem_of_closed h.closed) (by simp)
  | cons e text =>
      have hletter : e ≠ 'x' ∧ e ≠ 'u' ∧ e ≠ 'U' := by
        refine ⟨?_, ?_, ?_⟩ <;> rintro rfl <;>
          simp [isLineOver_of_not_space, isSpace] at hover
      rw [List.cons_append] at hover hread
      rw [List.cons_append, List.cons_append, basicLines_step hletter, if_pos hover, hread]
      simp [after]

theorem basicLines_char (hc : isPlain c ∨ c = '\n') (hslash : c ≠ '\\')
    (hmore : Continues '"' c text) :
    basicLines? skipping (c :: text) =
      if skipping && (isSpace c || c == '\n') then after [] [c] (basicLines? true text)
      else afterPlain c (basicLines? false text) := by
  have hreturn : c ≠ '\r' := by
    rcases hc with hc | rfl
    · exact ne_return_of_isPlain hc
    · decide
  rw [basicLines?]
  · simp [hc, hslash]
  · exact fun _ hr => absurd hr hreturn
  · exact fun _ hq ht => hmore hq _ ht
  · exact fun _ hq ht => hmore hq _ ht
  · exact fun _ hq ht => hmore hq _ ht
  all_goals intros; contradiction

theorem basicLines_blank (hc : isSpace c ∨ c = '\n')
    (h : Spells lineQuotes (basicLines? true) body text) :
    Spells lineQuotes (basicLines? true) body (c :: text) := by
  refine ⟨h.closed.trans (List.suffix_cons c _), fun rest hr => ?_⟩
  have hne : ∀ d, d = '\\' ∨ d = '"' → c ≠ d := by
    rintro d hd rfl
    rcases hd with rfl | rfl <;> exact absurd hc (by decide)
  rw [List.cons_append, basicLines_char (hc.imp_left isPlain_of_isSpace) (hne _ (.inl rfl))
    fun hq => absurd hq (hne _ (.inr rfl)), h.reads rest hr]
  simp [hc, after]

theorem basicLines_plain (hc : isPlain c ∨ c = '\n') (hslash : c ≠ '\\')
    (hskip : ¬ (skipping ∧ (isSpace c ∨ c = '\n'))) (hmore : Continues '"' c text)
    (h : Spells lineQuotes (basicLines? false) body text) :
    Spells lineQuotes (basicLines? skipping) (c :: body) (c :: text) := by
  refine ⟨h.closed.trans (List.suffix_cons c _), fun rest hr => ?_⟩
  rw [List.cons_append, basicLines_char hc hslash (hmore.append h.closed rest), h.reads rest hr,
    if_neg (by simpa using hskip)]
  simp [afterPlain, after]

end Spells

theorem repeats_basicLines? {skipping : Bool} {s : Text} {r : Reading}
    (h : basicLines? skipping s = some r) :
    Repeats Spells.lineQuotes (basicLines? skipping) s r := by
  fun_induction basicLines? skipping s generalizing r with
  | case1 => cases h
  | case2 rest ih =>
      obtain ⟨r', hr', rfl⟩ := of_after h
      obtain ⟨rfl, hs⟩ := ih hr'
      exact ⟨rfl, hs.basicLines_return true⟩
  | case3 skipping rest hskip ih =>
      obtain ⟨r', hr', rfl⟩ := of_after h
      obtain ⟨rfl, hs⟩ := ih hr'
      obtain rfl : skipping = false := by simpa using hskip
      exact ⟨rfl, hs.basicLines_return false⟩
  | case4 _ rest | case5 _ rest _ | case6 _ rest _ _ =>
      obtain rfl := Option.some.inj h
      exact ⟨rfl, .basicLines_close _ (by simp)⟩
  | case7 _ a b rest ih | case8 _ a b c d rest ih | case9 _ a b c d e f g h rest ih =>
      obtain ⟨c, r', hc, hr', rfl⟩ := of_afterCode ‹afterCode _ _ _ = some r›
      obtain ⟨rfl, hs⟩ := ih hr'
      exact ⟨rfl, hs.code (fun _ => rfl) hc⟩
  | case10 _ e rest _ _ _ hover ih =>
      obtain ⟨r', hr', rfl⟩ := of_after h
      obtain ⟨hrest, hs⟩ := ih hr'
      rw [hrest, isLineOver_append (Spells.mem_of_closed hs.closed)] at hover
      exact ⟨by rw [hrest]; rfl, hs.basicLines_skip hover⟩
  | case11 _ e rest _ _ _ hover ih =>
      obtain ⟨c, r', hc, hr', rfl⟩ := of_afterEscape h
      obtain ⟨rfl, hs⟩ := ih hr'
      exact ⟨rfl, hs.basicLines_escape hc⟩
  | case12 skipping c rest _ _ _ _ _ _ _ _ hblank ih =>
      obtain ⟨r', hr', rfl⟩ := of_after h
      obtain ⟨rfl, hs⟩ := ih hr'
      obtain ⟨rfl, hc⟩ : skipping = true ∧ (isSpace c ∨ c = '\n') := by simpa using hblank
      exact ⟨rfl, hs.basicLines_blank hc⟩
  | case13 skipping c rest _ _ _ hmore _ _ _ _ hblank hc ih =>
      obtain ⟨r', hr', rfl⟩ := of_after h
      obtain ⟨rfl, hs⟩ := ih hr'
      obtain ⟨hp, hslash⟩ : (isPlain c ∨ c = '\n') ∧ c ≠ '\\' := by simpa using hc
      refine ⟨rfl, hs.basicLines_plain hp hslash (by simpa using hblank) fun hq t ht => ?_⟩
      exact hmore (t ++ r'.rest) hq (congrArg (· ++ r'.rest) ht)
  | case14 => cases h

/-! ### Every form -/

theorem afterOpening_eq {reader : Text → Option Reading} {s : Text}
    (hline : ∀ t, s ≠ '\n' :: t) (hreturn : ∀ t, s ≠ '\r' :: '\n' :: t) :
    afterOpening reader s = reader s := by
  rw [afterOpening]
  · exact hline
  · exact hreturn

namespace Spells

variable {reader : Text → Option Reading} {quotes body text : Text}

theorem afterOpening_line (h : Spells quotes reader body text) :
    Spells quotes (afterOpening reader) body ('\n' :: text) := by
  refine ⟨h.closed.trans (List.suffix_cons _ _), fun rest hr => ?_⟩
  simp [afterOpening, h.reads rest hr, after]

theorem afterOpening_return (h : Spells quotes reader body text) :
    Spells quotes (afterOpening reader) body ('\r' :: '\n' :: text) := by
  refine ⟨h.closed.trans (List.suffix_append ['\r', '\n'] _), fun rest hr => ?_⟩
  simp [afterOpening, h.reads rest hr, after]

theorem afterOpening_same (hq : 2 ≤ quotes.length) (hline : ∀ t, text ≠ '\n' :: t)
    (hreturn : ∀ t, text ≠ '\r' :: '\n' :: t) (h : Spells quotes reader body text) :
    Spells quotes (afterOpening reader) body text := by
  refine ⟨h.closed, fun rest hr => ?_⟩
  have hlength : 2 ≤ text.length := hq.trans h.closed.length_le
  match text, hlength with
  | a :: b :: text', _ =>
      rw [afterOpening_eq, h.reads rest hr]
      · exact fun t ht => hline _ (by rw [(List.cons.inj ht).1])
      · rintro t ht
        obtain ⟨rfl, rfl, -⟩ : a = '\r' ∧ b = '\n' ∧ text' ++ rest = t := by simpa using ht
        exact hreturn _ rfl

end Spells

theorem repeats_afterOpening {reader : Text → Option Reading} {quotes s : Text} {r : Reading}
    (hq : 2 ≤ quotes.length) (hreader : ∀ {s r}, reader s = some r → Repeats quotes reader s r)
    (h : afterOpening reader s = some r) : Repeats quotes (afterOpening reader) s r := by
  unfold afterOpening at h
  split at h
  next rest =>
    obtain ⟨r', hr', rfl⟩ := of_after h
    obtain ⟨rfl, hs⟩ := hreader hr'
    exact ⟨rfl, hs.afterOpening_line⟩
  next rest =>
    obtain ⟨r', hr', rfl⟩ := of_after h
    obtain ⟨rfl, hs⟩ := hreader hr'
    exact ⟨rfl, hs.afterOpening_return⟩
  next hline hreturn =>
    obtain ⟨rfl, hs⟩ := hreader h
    refine ⟨rfl, hs.afterOpening_same hq (fun t ht => ?_) fun t ht => ?_⟩
    · exact hline (t ++ r.rest) (congrArg (· ++ r.rest) ht)
    · exact hreturn (t ++ r.rest) (congrArg (· ++ r.rest) ht)

/-- A text in quotes that is read as the string `body`, whatever but a further quote stands
behind it. -/
structure Quotes (body text : Text) : Prop where
  opens : ∃ quote t, text = quote :: t ∧ (quote = '"' ∨ quote = '\'')
  length : 2 ≤ text.length
  reads : ∀ rest, Begins (fun c => c ≠ '"' ∧ c ≠ '\'') rest →
    read? (text ++ rest) = some ⟨body, text, rest⟩

/-- A string in single or double quotes does not open with two more of them. -/
theorem not_two_more {quote : Char} {text rest : Text} (hclosed : [quote] <:+ text)
    (hmore : Continues quote quote text) (hr : Begins (· ≠ quote) rest) (t : Text) :
    text ++ rest ≠ quote :: quote :: t := by
  intro ht
  match text, hclosed.length_le with
  | [a], _ =>
      obtain ⟨-, rfl⟩ : a = quote ∧ rest = quote :: t := by simpa using ht
      simp at hr
  | a :: b :: text', _ =>
      obtain ⟨rfl, rfl, -⟩ : a = quote ∧ b = quote ∧ text' ++ rest = t := by simpa using ht
      exact hmore rfl _ rfl

namespace Quotes

variable {body text : Text}

theorem basic (hmore : Continues '"' '"' text) (h : Spells ['"'] basic? body text) :
    Quotes body ('"' :: text) := by
  refine ⟨⟨_, _, rfl, .inl rfl⟩, Nat.succ_le_succ h.closed.length_le, fun rest hr => ?_⟩
  have hnot := not_two_more h.closed hmore (hr.imp fun _ hc => hc.1)
  rw [List.cons_append, read?, h.reads rest hr]
  · simp [after]
  · exact hnot

theorem literal (hmore : Continues '\'' '\'' text) (h : Spells ['\''] literal? body text) :
    Quotes body ('\'' :: text) := by
  refine ⟨⟨_, _, rfl, .inr rfl⟩, Nat.succ_le_succ h.closed.length_le, fun rest hr => ?_⟩
  have hnot := not_two_more h.closed hmore (hr.imp fun _ hc => hc.2)
  rw [List.cons_append, read?, h.reads rest hr]
  · simp [after]
  · exact hnot

theorem basicLines (h : Spells Spells.lineQuotes (afterOpening (basicLines? false)) body text) :
    Quotes body ('"' :: '"' :: '"' :: text) := by
  refine ⟨⟨_, _, rfl, .inl rfl⟩, by simp, fun rest hr => ?_⟩
  simp [read?, h.reads rest hr, after]

theorem literalLines (h : Spells ['\'', '\'', '\''] (afterOpening literalLines?) body text) :
    Quotes body ('\'' :: '\'' :: '\'' :: text) := by
  refine ⟨⟨_, _, rfl, .inr rfl⟩, by simp, fun rest hr => ?_⟩
  simp [read?, h.reads rest hr, after]

end Quotes

theorem quotes_of_read? {s : Text} {r : Reading} (h : read? s = some r) :
    s = r.text ++ r.rest ∧ Quotes r.body r.text := by
  unfold read? at h
  split at h
  next rest =>
    obtain ⟨r', hr', rfl⟩ := of_after h
    obtain ⟨rfl, hs⟩ := repeats_afterOpening (by decide) repeats_basicLines? hr'
    exact ⟨rfl, .basicLines hs⟩
  next rest =>
    obtain ⟨r', hr', rfl⟩ := of_after h
    obtain ⟨rfl, hs⟩ := repeats_afterOpening (by decide) repeats_literalLines? hr'
    exact ⟨rfl, .literalLines hs⟩
  next rest hmore =>
    obtain ⟨r', hr', rfl⟩ := of_after h
    obtain ⟨rfl, hs⟩ := repeats_basic? hr'
    exact ⟨rfl, .basic (fun _ t ht => hmore (t ++ r'.rest) (congrArg (· ++ r'.rest) ht)) hs⟩
  next rest hmore =>
    obtain ⟨r', hr', rfl⟩ := of_after h
    obtain ⟨rfl, hs⟩ := repeats_literal? hr'
    exact ⟨rfl, .literal (fun _ t ht => hmore (t ++ r'.rest) (congrArg (· ++ r'.rest) ht)) hs⟩
  next => cases h

theorem read?_eq_none {c : Char} {s : Text} (hd : c ≠ '"') (hs : c ≠ '\'') :
    read? (c :: s) = none := by
  rw [read?] <;> intros <;> simp_all

theorem of_readLine? {s : Text} {r : Reading} (h : readLine? s = some r) :
    read? s = some r ∧ ∀ quote, quote = '"' ∨ quote = '\'' →
      ∀ t, s ≠ quote :: quote :: quote :: t := by
  unfold readLine? at h
  split at h
  · cases h
  · cases h
  next hd hs =>
    refine ⟨h, ?_⟩
    rintro quote (rfl | rfl) t rfl
    · exact hd _ rfl
    · exact hs _ rfl

/-- A string that was read within a line is read so again. -/
theorem readLine?_append {s : Text} {r : Reading} (h : readLine? s = some r) {rest : Text}
    (hr : Begins (fun c => c ≠ '"' ∧ c ≠ '\'') rest) :
    readLine? (r.text ++ rest) = some ⟨r.body, r.text, rest⟩ := by
  obtain ⟨hread, hthree⟩ := of_readLine? h
  obtain ⟨rfl, hq⟩ := quotes_of_read? hread
  have hnot : ∀ quote, quote = '"' ∨ quote = '\'' →
      ∀ t, r.text ++ rest ≠ quote :: quote :: quote :: t := by
    intro quote hquote t ht
    match htext : r.text, hq.length with
    | [a, b], _ =>
        rw [htext] at ht
        obtain ⟨-, -, rfl⟩ : a = quote ∧ b = quote ∧ rest = quote :: t := by simpa using ht
        rcases hquote with rfl | rfl <;> simp at hr
    | a :: b :: c :: text', _ =>
        rw [htext] at ht
        obtain ⟨rfl, rfl, rfl, -⟩ : a = quote ∧ b = quote ∧ c = quote ∧ text' ++ rest = t := by
          simpa using ht
        exact hthree _ hquote (text' ++ r.rest) (by rw [htext]; rfl)
  rw [readLine?, hq.reads rest hr]
  · exact hnot _ (.inl rfl)
  · exact hnot _ (.inr rfl)

end DnsFilter.Toml.Quoted
