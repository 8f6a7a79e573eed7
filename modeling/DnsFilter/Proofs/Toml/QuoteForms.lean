import DnsFilter.Proofs.Toml.Quotation

/-! Strings as they are written. Each of the four forms is read back as the text it was chosen for:
the two with escapes as any text, the two without as the texts that need none. -/

namespace DnsFilter.Toml.Quoted

/-! ### Characters in double quotes -/

theorem character?_hexText {c : Char} (h : needsEscape c) :
    ∃ d₁ d₂ d₃ d₄, hexText 4 c.toNat = [d₁, d₂, d₃, d₄] ∧
      character? [d₁, d₂, d₃, d₄] = some c := by
  have hsmall : ∀ n < 128, needsEscape (Char.ofNat n) →
      (hexText 4 n).length = 4 ∧ character? (hexText 4 n) = some (Char.ofNat n) := by
    decide
  have hlt : c.toNat < 128 := by
    have hplain : ¬ isPlain c := by
      intro hp
      simp [needsEscape, hp] at h
    have hc : c.toNat < 0x20 ∨ c = '\x7f' := by
      by_contra hn
      apply hplain
      simp_all [isPlain]
    rcases hc with hc | rfl
    · omega
    · decide
  obtain ⟨hlength, hread⟩ := hsmall c.toNat hlt (by rwa [Char.ofNat_toNat])
  rw [Char.ofNat_toNat] at hread
  rcases htext : hexText 4 c.toNat with _ | ⟨d₁, _ | ⟨d₂, _ | ⟨d₃, _ | ⟨d₄, _ | ⟨d₅, t⟩⟩⟩⟩⟩ <;>
    simp [htext] at hlength
  exact ⟨d₁, d₂, d₃, d₄, rfl, htext ▸ hread⟩

/-- A character other than a quote is written as an escape, as a code point or as it is. -/
inductive Shown (lines : Bool) (c : Char) : Text → Prop
  | escape {e : Char} (he : escape? e = some c) : Shown lines c ['\\', e]
  | code {d₁ d₂ d₃ d₄ : Char} (hc : character? [d₁, d₂, d₃, d₄] = some c) :
      Shown lines c ['\\', 'u', d₁, d₂, d₃, d₄]
  | plain (hslash : c ≠ '\\') (hc : isPlain c ∨ lines ∧ c = '\n') : Shown lines c [c]

theorem shown_escaped (lines : Bool) (c : Char) : Shown lines c (escaped lines c) := by
  unfold escaped
  split_ifs with h₁ h₂ h₃ hl h₄ h₅ h₆ h₇ <;> simp only [beq_iff_eq] at *
  · exact .escape (h₁ ▸ rfl)
  · exact .escape (h₂ ▸ rfl)
  · subst h₃
    exact .plain (by decide) (.inr ⟨hl, rfl⟩)
  · exact .escape (h₃ ▸ rfl)
  · exact .escape (h₄ ▸ rfl)
  · exact .escape (h₅ ▸ rfl)
  · subst h₆
    exact .escape rfl
  · obtain ⟨d₁, d₂, d₃, d₄, htext, hread⟩ := character?_hexText h₇
    rw [htext]
    exact .code hread
  · refine .plain h₆ (.inl ?_)
    simp_all [needsEscape]

/-! ### Double quotes -/

section Body

variable {lines : Bool} {free run : Nat} {c : Char} {s : Text}

theorem body_of_ne (hc : c ≠ '"') :
    body lines free run (c :: s) = escaped lines c ++ body lines free 0 s := by
  simp [body, hc]

theorem body_of_free (hr : run < free) :
    body lines free run ('"' :: s) = '"' :: body lines free (run + 1) s := by
  simp [body, hr]

theorem body_of_not_free (hr : ¬ run < free) :
    body lines free run ('"' :: s) = '\\' :: '"' :: body lines free 0 s := by
  simp [body, hr]

/-- No bare quote comes next if none is free or none is there. -/
theorem begins_body {d : Char} (h : d = '"' → ¬ run < free) (t : Text) :
    Begins (· ≠ '"') (body lines free run (d :: s) ++ t) := by
  by_cases hd : d = '"'
  · subst hd
    simp [body_of_not_free (h rfl)]
  · rw [body_of_ne hd]
    generalize htext : escaped lines d = text
    have hshown : Shown lines d text := htext ▸ shown_escaped lines d
    cases hshown <;> simp [hd]

end Body

/-- Any text, with all quotes in it escaped. -/
theorem spells_body (s : Text) : Spells ['"'] basic? s (body false 0 0 s ++ ['"']) := by
  induction s with
  | nil => exact .basic_close
  | cons c s ih =>
      by_cases hquote : c = '"'
      · subst hquote
        exact ih.basic_escape (e := '"') rfl
      · rw [body_of_ne hquote, List.append_assoc]
        generalize htext : escaped false c = text
        have hshown : Shown false c text := htext ▸ shown_escaped false c
        cases hshown with
        | escape he => exact ih.basic_escape he
        | code hc => exact ih.code (fun _ => rfl) hc
        | plain hslash hc => exact ih.basic_plain (by simpa using hc) hslash hquote

/-- Bare quotes go on with the text, unless they are the last thing in it. -/
theorem continues_body {run : Nat} {s t : Text} (hs : s ≠ []) (hlast : s = ['"'] → run ≠ 0) :
    Continues '"' '"' (body true 2 (run + 1) s ++ t) := by
  match s with
  | [] => exact absurd rfl hs
  | d :: s =>
      by_cases hfree : d = '"' ∧ run + 1 < 2
      · obtain ⟨rfl, hrun⟩ := hfree
        obtain rfl : run = 0 := by omega
        rw [body_of_free hrun]
        match s with
        | [] => exact absurd rfl (hlast rfl)
        | d' :: s => exact .of_begins_tail (begins_body (fun _ => Nat.lt_irrefl 2) t)
      · exact .of_begins (begins_body (fun hd hr => hfree ⟨hd, hr⟩) t)

/-- Any text, with as many quotes in it bare as may stand in a row. -/
theorem spells_body_lines (s : Text) (run : Nat) :
    Spells Spells.lineQuotes (basicLines? false) s (body true 2 run s ++ Spells.lineQuotes) := by
  induction s generalizing run with
  | nil => exact .basicLines_close [] (by simp)
  | cons c s ih =>
      by_cases hquote : c = '"'
      · subst hquote
        by_cases hrun : run < 2
        · rw [body_of_free hrun]
          by_cases hs : s = []
          · subst hs
            exact .basicLines_close ['"'] (by simp)
          by_cases hlast : s = ['"'] ∧ run = 0
          · obtain ⟨rfl, rfl⟩ := hlast
            exact .basicLines_close ['"', '"'] (by simp)
          refine (ih (run + 1)).basicLines_plain (.inl (by decide)) (by decide) (by simp) ?_
          exact continues_body hs fun hquote hzero => hlast ⟨hquote, hzero⟩
        · rw [body_of_not_free hrun]
          exact (ih 0).basicLines_escape (e := '"') rfl
      · rw [body_of_ne hquote, List.append_assoc]
        generalize htext : escaped true c = text
        have hshown : Shown true c text := htext ▸ shown_escaped true c
        cases hshown with
        | escape he => exact (ih 0).basicLines_escape he
        | code hc => exact (ih 0).code (fun _ => rfl) hc
        | plain hslash hc =>
            exact (ih 0).basicLines_plain (by simpa using hc) hslash (by simp)
              fun hq => absurd hq hquote

/-! ### Single quotes -/

theorem le_longestRun (c : Char) (s : Text) (run : Nat) : run ≤ longestRun c run s := by
  induction s generalizing run with
  | nil => exact Nat.le_refl run
  | cons d s ih =>
      rw [longestRun]
      split
      · exact (Nat.le_succ run).trans (ih (run + 1))
      · exact Nat.le_max_left run _

theorem longestRun_mono (c : Char) (s : Text) {m n : Nat} (h : m ≤ n) :
    longestRun c m s ≤ longestRun c n s := by
  induction s generalizing m n with
  | nil => exact h
  | cons d s ih =>
      rw [longestRun, longestRun]
      split
      · exact ih (Nat.succ_le_succ h)
      · omega

theorem longestRun_le_cons (c d : Char) (s : Text) :
    longestRun c 0 s ≤ longestRun c 0 (d :: s) := by
  rw [longestRun.eq_2]
  split
  · exact longestRun_mono c s (Nat.zero_le 1)
  · exact Nat.le_max_right 0 _

theorem notMem_of_longestRun {c : Char} {s : Text} (h : longestRun c 0 s = 0) : c ∉ s := by
  induction s with
  | nil => simp
  | cons d s ih =>
      have hs : longestRun c 0 s = 0 := Nat.eq_zero_of_le_zero ((longestRun_le_cons c d s).trans h.le)
      rintro (_ | ⟨_, hmem⟩)
      · rw [longestRun, if_pos (by simp)] at h
        exact absurd (h ▸ le_longestRun c s 1) (by decide)
      · exact ih hs hmem

/-- A text of plain characters with no single quote in it. -/
theorem spells_literal {s : Text} (hs : ∀ c ∈ s, isPlain c) (hquote : '\'' ∉ s) :
    Spells ['\''] literal? s (s ++ ['\'']) := by
  induction s with
  | nil => exact .literal_close
  | cons c s ih =>
      simp only [List.mem_cons, not_or] at hquote
      exact (ih (fun d hd => hs d (by simp [hd])) hquote.2).literal_plain (hs c (by simp))
        (Ne.symm hquote.1)

/-- A text of plain characters and line feeds with at most two single quotes in a row. -/
theorem spells_literal_lines {s : Text} (hs : ∀ c ∈ s, isPlain c ∨ c = '\n')
    (hrun : longestRun '\'' 0 s ≤ 2) :
    Spells ['\'', '\'', '\''] literalLines? s (s ++ ['\'', '\'', '\'']) := by
  induction s with
  | nil => exact .literalLines_close [] (by simp)
  | cons c s ih =>
      have hmore := ih (fun d hd => hs d (by simp [hd])) ((longestRun_le_cons _ c s).trans hrun)
      by_cases hend : c = '\'' ∧ (s = [] ∨ s = ['\''])
      · obtain ⟨rfl, rfl | rfl⟩ := hend
        · exact .literalLines_close ['\''] (by simp)
        · exact .literalLines_close ['\'', '\''] (by simp)
      · refine hmore.literalLines_plain (hs c (by simp)) ?_
        rintro rfl t ht
        match s with
        | [] => exact hend ⟨rfl, .inl rfl⟩
        | [d] =>
            obtain rfl : d = '\'' := (List.cons.inj ht).1
            exact hend ⟨rfl, .inr rfl⟩
        | d :: e :: s =>
            obtain rfl : d = '\'' := (List.cons.inj ht).1
            obtain rfl : e = '\'' := (List.cons.inj (List.cons.inj ht).2).1
            have hthree : 3 ≤ longestRun '\'' 0 ('\'' :: '\'' :: '\'' :: s) :=
              le_longestRun '\'' s 3
            omega

/-! ### The form that is chosen -/

theorem of_form_literal {s : Text} (h : form s = .literal) :
    (∀ c ∈ s, isPlain c) ∧ '\'' ∉ s := by
  simp only [form] at h
  split_ifs at h with h₁ h₂
  simp only [Bool.and_eq_true, Bool.not_eq_true', beq_iff_eq, List.any_eq_false] at h₂
  obtain ⟨⟨hescape, hrun⟩, hline⟩ := h₂
  refine ⟨fun c hc => ?_, notMem_of_longestRun hrun⟩
  have hne : c ≠ '\n' := by
    rintro rfl
    simp [hc] at hline
  simpa [needsEscape, hne] using hescape c hc

theorem of_form_literalLines {s : Text} (h : form s = .literalLines) :
    (∀ c ∈ s, isPlain c ∨ c = '\n') ∧ longestRun '\'' 0 s ≤ 2 := by
  simp only [form] at h
  split_ifs at h with h₁ h₂ h₃ h₄
  simp only [Bool.and_eq_true, Bool.not_eq_true', decide_eq_true_eq, List.any_eq_false] at h₄
  refine ⟨fun c hc => ?_, h₄.2⟩
  have hescape := h₄.1 c hc
  by_cases hline : c = '\n'
  · exact .inr hline
  · exact .inl (by simpa [needsEscape, hline] using hescape)

/-- A string that runs over lines, read behind its opening. -/
theorem Spells.opening {reader : Text → Option Reading} {quotes body text s : Text}
    (hq : 2 ≤ quotes.length)
    (hbegins : '\n' ∉ s → Begins (fun c => c ≠ '\n' ∧ c ≠ '\r') text)
    (h : Spells quotes reader body text) :
    Spells quotes (afterOpening reader) body (opening s ++ text) := by
  unfold Quoted.opening
  split
  next hline => exact h.afterOpening_line
  next hline =>
    have hb := hbegins (by simpa using hline)
    refine h.afterOpening_same hq ?_ ?_ <;> rintro t rfl <;> simp at hb

theorem begins_body_lines {s : Text} (hline : '\n' ∉ s) :
    Begins (fun c => c ≠ '\n' ∧ c ≠ '\r') (body true 2 0 s ++ Spells.lineQuotes) := by
  match s with
  | [] => simp [body]
  | c :: s =>
      by_cases hquote : c = '"'
      · subst hquote
        simp [body_of_free]
      · rw [body_of_ne hquote]
        generalize htext : escaped true c = text
        have hshown : Shown true c text := htext ▸ shown_escaped true c
        cases hshown with
        | escape | code => simp
        | plain _ hc =>
            have hne : c ≠ '\n' := fun h => hline (h ▸ List.mem_cons_self)
            have hp : isPlain c := by simpa [hne] using hc
            simpa using ⟨hne, ne_return_of_isPlain hp⟩

theorem begins_literal_lines {s : Text} (hs : ∀ c ∈ s, isPlain c ∨ c = '\n') (hline : '\n' ∉ s) :
    Begins (fun c => c ≠ '\n' ∧ c ≠ '\r') (s ++ ['\'', '\'', '\'']) := by
  refine Begins.append (fun c hc => ?_) (by simp)
  have hne : c ≠ '\n' := fun h => hline (h ▸ hc)
  exact ⟨hne, ne_return_of_isPlain ((hs c hc).resolve_right hne)⟩

/-- Every text is read back from the form it is written in. -/
theorem quotes_write (s : Text) : Quotes s (write s) := by
  unfold write
  split
  next =>
    refine .basic ?_ (spells_body s)
    match s with
    | [] => exact fun _ t ht => by simp [body] at ht
    | c :: s => exact .of_begins (begins_body (fun _ => Nat.lt_irrefl 0) _)
  next h =>
    obtain ⟨hplain, hquote⟩ := of_form_literal h
    refine .literal ?_ (spells_literal hplain hquote)
    match s with
    | [] => exact fun _ t ht => by simp at ht
    | c :: s =>
        have hc : c ≠ '\'' := fun h => hquote (h ▸ List.mem_cons_self)
        exact .of_begins (by simpa using hc)
  next =>
    have hs := (spells_body_lines s 0).opening (by decide) begins_body_lines
    simpa using Quotes.basicLines hs
  next h =>
    obtain ⟨hplain, hrun⟩ := of_form_literalLines h
    have hs := (spells_literal_lines hplain hrun).opening (by decide) (begins_literal_lines hplain)
    simpa using Quotes.literalLines hs

end DnsFilter.Toml.Quoted
