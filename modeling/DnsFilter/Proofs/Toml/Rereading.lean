import DnsFilter.Proofs.Toml.Documents
import DnsFilter.Proofs.Toml.Grouping

/-! What was read as a value is read again as the same value from the text it was read with. Of an
inline table that text is printed anew, with the entries brought together that stand in one table. -/

namespace DnsFilter.Toml

/-! ### Values without brackets, and arrays -/

variable {n depth : Nat} {v : Value} {s text rest g : Text}

theorem head?_append_of_opens (h : ∃ c t, text = c :: t ∧ OpensValue c) (rest : Text) :
    (text ++ rest).head? = text.head? := by
  obtain ⟨c, t, rfl, -⟩ := h
  rfl

theorem spellsValue_of_plain? (h : plain? s = some (v, text, rest)) (depth : Nat) :
    SpellsValue depth v text ∧ s.head? = text.head? := by
  have hspells : s = text ++ rest ∧ SpellsValue depth v text := by
    rw [plain?] at h
    split at h
    next p hp =>
      obtain rfl := Option.some.inj h
      obtain ⟨r, hr, hp⟩ := Option.map_eq_some_iff.1 hp
      obtain ⟨rfl, rfl, rfl⟩ : .string r.body = v ∧ r.text = text ∧ r.rest = rest := by
        simpa using hp
      obtain ⟨hs, hq⟩ := Quoted.quotes_of_read? hr
      exact ⟨hs, spellsValue_of_quotes hq depth⟩
    next =>
      obtain ⟨hs, ha⟩ := Atom.spells_of_read? h
      exact ⟨hs, spellsValue_of_atom ha depth⟩
  obtain ⟨rfl, hv⟩ := hspells
  exact ⟨hv, head?_append_of_opens hv.opens rest⟩

theorem gapBefore_of_gap (h : gap false s = (g, rest)) (hv : SpellsValue depth v text)
    (hhead : rest.head? = text.head?) : GapBefore g text := by
  obtain ⟨after, hg, hr⟩ := gapText_gap false s
  rw [h] at hg hr
  obtain ⟨c, t, rfl, hc⟩ := hv.opens
  refine ⟨after, hg, ?_⟩
  rw [begins_cons]
  exact hr c hhead (hc.ne (by decide))

/-- A reader whose values are read again, when brackets in them are at most `depth` deep. -/
def Rereads (depth : Nat) (reader : ValueReader) : Prop :=
  ∀ s v text rest, reader s = some (v, text, rest) → SpellsValue depth v text ∧ s.head? = text.head?

theorem spellsElements_of_elements? {reader : ValueReader} (hreader : Rereads depth reader)
    {count : Nat} {items : List Value} (h : elements? reader count s = some (items, text, rest)) :
    SpellsElements depth items text := by
  induction count generalizing s items text with
  | zero => cases h
  | succ count ih =>
      rw [elements?] at h
      cases hgap : gap false s with
      | mk gap₁ s₁ =>
          simp only [hgap] at h
          split at h
          next rest' =>
            obtain ⟨rfl, rfl, rfl⟩ : [] = items ∧ gap₁ ++ [']'] = text ∧ rest' = rest := by
              simpa using h
            exact spellsElements_nil (isGap_of_gap hgap (by decide)).1
          next =>
            obtain ⟨⟨v, vtext, s₂⟩, hv, h⟩ := Option.bind_eq_some_iff.1 h
            obtain ⟨hspells, hhead⟩ := hreader _ _ _ _ hv
            have hbefore := gapBefore_of_gap hgap hspells hhead
            cases hgap₂ : gap false s₂ with
            | mk gap₂ s₃ =>
                simp only [hgap₂] at h
                split at h
                next rest' =>
                  obtain ⟨rfl, rfl, rfl⟩ : [v] = items ∧
                      gap₁ ++ (vtext ++ (gap₂ ++ [']'])) = text ∧ rest' = rest := by simpa using h
                  have hlast := spellsElements_last hbefore hspells
                    (isGap_of_gap hgap₂ (by decide)).1
                  simpa using hlast
                next rest' =>
                  obtain ⟨⟨more, others, s₄⟩, hmore, h⟩ := Option.bind_eq_some_iff.1 h
                  obtain ⟨rfl, rfl, rfl⟩ : v :: more = items ∧
                      gap₁ ++ (vtext ++ (gap₂ ++ ',' :: others)) = text ∧ s₄ = rest := by
                    simpa using h
                  have hall := spellsElements_more hbefore hspells
                    (isGap_of_gap hgap₂ (by decide)).1 (ih hmore)
                  simpa using hall
                next => cases h

/-! ### Entries of inline tables -/

/-- A value in an inline table that can be read where it stands. -/
structure Written.InlineWritten (depth : Nat) (w : Written) : Prop where
  space : GapBefore w.space w.text
  value : SpellsValue depth w.value w.text
  tail : IsGap w.tail

/-- An entry of an inline table that can be read where it stands: line ends and comments may stand
before and behind its key. -/
structure Entry.InlineWritten (depth : Nat) (e : Entry) : Prop where
  lead : IsGap e.lead
  key : ∃ k more, e.key = Key.extended more k ∧ Key.WellWritten k ∧ IsGap more
  body : e.body.InlineWritten depth

theorem eq_of_afterEquals? (h : afterEquals? s = some rest) : s = '=' :: rest := by
  unfold afterEquals? at h
  split at h
  · rw [Option.some.inj h]
  · cases h

theorem Key.WellWritten.eq_cons {k : Key} (h : Key.WellWritten k) :
    ∃ c t, Key.render k = c :: t ∧ isPlain c := by
  obtain ⟨c, t, hopens, hc⟩ := h.opens
  rw [Key.render_eq, hopens]
  cases hindent : Key.indent k with
  | nil => exact ⟨c, t, rfl, hc.isPlain⟩
  | cons d indent =>
      exact ⟨d, indent ++ c :: t, rfl,
        isPlain_of_isSpace (h.indent d (hindent ▸ List.mem_cons_self))⟩

theorem inlineWritten_of_fields? {reader : ValueReader} (hreader : Rereads depth reader)
    {count : Nat} {entries : List Entry} {last : Text}
    (h : fields? reader count s = some (entries, last, rest)) :
    (∀ e ∈ entries, e.InlineWritten depth) ∧ IsGap last := by
  induction count generalizing s entries with
  | zero => cases h
  | succ count ih =>
      rw [fields?] at h
      cases hlead : gap false s with
      | mk lead s₁ =>
          simp only [hlead] at h
          split at h
          next rest' =>
            obtain ⟨rfl, rfl, rfl⟩ : [] = entries ∧ lead = last ∧ rest' = rest := by simpa using h
            exact ⟨by simp, (isGap_of_gap hlead (by decide)).1⟩
          next =>
            obtain ⟨⟨key, s₂⟩, hkey, hbehind⟩ := Option.bind_eq_some_iff.1 h
            obtain ⟨s₃, hequals, hbehind⟩ := Option.bind_eq_some_iff.1 hbehind
            obtain ⟨⟨v, text, s₄⟩, hv, hbehind⟩ := Option.bind_eq_some_iff.1 hbehind
            obtain ⟨hne, hparts, rfl⟩ := wellWritten_of_key? hkey
            have hwritten : Key.WellWritten key := ⟨hne, hparts⟩
            have hleadGap : IsGap lead := by
              obtain ⟨c, t, hcons, hc⟩ := hwritten.eq_cons
              rw [hcons] at hlead
              exact (isGap_of_gap hlead hc).1
            have hafterGap : IsGap (gap false s₂).1 := by
              have hrest : gap false s₂ = ((gap false s₂).1, '=' :: s₃) := by
                rw [← eq_of_afterEquals? hequals]
              exact (isGap_of_gap hrest (by decide)).1
            obtain ⟨hspells, hhead⟩ := hreader _ _ _ _ hv
            have hspace : GapBefore (gap false s₃).1 text := gapBefore_of_gap rfl hspells hhead
            have hentry : ∀ tail, IsGap tail → Entry.InlineWritten depth
                ⟨lead, Key.extended (gap false s₂).1 key, ⟨(gap false s₃).1, text, v, tail⟩⟩ :=
              fun tail htail => ⟨hleadGap, ⟨key, _, rfl, hwritten, hafterGap⟩, ⟨hspace, hspells, htail⟩⟩
            cases htail : gap false s₄ with
            | mk tail s₅ =>
                simp only [htail] at hbehind
                split at hbehind
                next rest' =>
                  obtain ⟨rfl, rfl, rfl⟩ : [_] = entries ∧ [] = last ∧ rest' = rest := by
                    simpa using hbehind
                  exact ⟨by simpa using hentry tail (isGap_of_gap htail (by decide)).1, .nil false⟩
                next rest' =>
                  obtain ⟨⟨more, last', s₆⟩, hmore, hbehind⟩ := Option.bind_eq_some_iff.1 hbehind
                  obtain ⟨rfl, rfl, rfl⟩ : _ :: more = entries ∧ last' = last ∧ s₆ = rest := by
                    simpa using hbehind
                  obtain ⟨hall, hlast⟩ := ih hmore
                  exact ⟨List.forall_mem_cons.2
                    ⟨hentry tail (isGap_of_gap htail (by decide)).1, hall⟩, hlast⟩
                next => cases hbehind

/-! ### Bringing entries together -/

theorem extended_concat (more : Text) (k : Key) (p : KeyPart) :
    Key.extended more (k ++ [p]) = k ++ [{ p with after := p.after ++ more }] := by
  induction k with
  | nil => rfl
  | cons q k ih =>
      rw [List.cons_append, Key.extended, ih, List.cons_append]
      simp

theorem parts_eq_extended (last : Text) (isFirst : Bool) (path : List Label) :
    Label.parts last isFirst path = Key.extended last (Label.parts [] isFirst path) := by
  induction path generalizing isFirst with
  | nil => rfl
  | cons l path ih =>
      cases path with
      | nil => rfl
      | cons m path =>
          have hcons : ∀ last, Label.parts last isFirst (l :: m :: path) =
              ⟨l.name, if isFirst then [] else l.before, l.text, l.after⟩ ::
                Label.parts last false (m :: path) := fun _ => rfl
          rw [hcons, hcons, ih]
          cases hparts : Label.parts [] false (m :: path) with
          | nil => cases path <;> cases hparts
          | cons p k => rfl

/-- A value in an inline table, behind a label whose key can be read there. -/
def InlineValue (depth : Nat) (l : Label) (w : Written) : Prop :=
  l.WellWritten (GapText false false) (GapText false false) ∧ w.InlineWritten depth

theorem Entry.InlineWritten.lands {e : Entry} (h : e.InlineWritten depth) :
    e.Lands (InlineValue depth) := by
  obtain ⟨k, more, hkey, hk, hmore⟩ := h.key
  obtain ⟨init, p, rfl⟩ : ∃ init p, k = init ++ [p] :=
    ⟨_, _, (List.dropLast_append_getLast hk.ne_nil).symm⟩
  have hp := hk.parts p (by simp)
  have hindent : IsSpaces ((e.key.head?.map (·.before)).getD []) := by
    rw [hkey, extended_concat]
    have hbefore := hk.indent
    cases init with
    | nil => exact hbefore
    | cons q init => exact hbefore
  obtain ⟨labels, before, hlabels, htables, hbefore⟩ := Label.ofParts_concat
    (fun q hq => hk.parts q (List.mem_append_left _ hq)) { p with after := p.after ++ more }
    (e.lead ++ (e.key.head?.map (·.before)).getD []) true
  rw [← extended_concat, ← hkey, ← Label.ofKey] at hlabels
  refine ⟨labels, _, hlabels, htables, ⟨hp.name, ?_, isSpaces_nil, ?_⟩, h.body⟩
  · rcases hbefore with rfl | rfl
    · exact isSpaces_nil
    · exact hp.before
  · simpa using ⟨h.lead.append hindent.isGap, hp.after.isGap.append hmore⟩

theorem LeadsTo.inlineWritten {path : List Label} {w : Written}
    (h : LeadsTo (InlineValue depth) path w) : (entryOf path w).InlineWritten depth := by
  obtain ⟨way, last, rfl, hway, hlast, hw⟩ := h
  have hends : IsGap ((last.ends.getD ([], [' '])).1) ∧ IsGap ((last.ends.getD ([], [' '])).2) := by
    cases hsome : last.ends with
    | none => exact ⟨.nil false, isSpaces_one.isGap⟩
    | some ends => exact hlast.ends ends hsome
  have hentry : entryOf (way ++ [last]) w = ⟨(last.ends.getD ([], [' '])).1,
      Key.extended (last.ends.getD ([], [' '])).2 (Label.parts [] true (way ++ [last])), w⟩ := by
    simp [entryOf, Label.toKey, ← parts_eq_extended]
  rw [hentry]
  obtain ⟨hne, hparts⟩ := Label.wellWritten_parts hway hlast isSpaces_nil true
  exact ⟨hends.1, ⟨_, _, rfl, ⟨hne, hparts⟩, hends.2⟩, hw⟩

/-! ### Reading inline tables as they are printed -/

/-- A gap begins with blank space, up to its first line end or comment. -/
theorem GapText.eq_append {after : Bool} (hg : GapText false after g) :
    ∃ blank more, g = blank ++ more ∧ IsSpaces blank ∧ GapText false after more ∧
      Begins (fun c => c = '\n' ∨ c = '#') more := by
  generalize hb : false = before at hg
  induction hg with
  | nil => exact ⟨[], [], rfl, isSpaces_nil, hb ▸ .nil _, by simp⟩
  | line rest => exact ⟨[], _, rfl, isSpaces_nil, hb ▸ .line rest, by simp⟩
  | @space _ c _ hc _ ih =>
      obtain ⟨blank, more, rfl, hblank, hmore, hbegins⟩ := ih hb
      exact ⟨c :: blank, more, rfl, by simpa [IsSpaces] using ⟨hc, hblank⟩, hmore, hbegins⟩
  | hash rest => exact ⟨[], _, rfl, isSpaces_nil, hb ▸ .hash rest, by simp⟩
  | comment => cases hb

namespace Key

variable {k : Key}

theorem bare_extended (more : Text) (k : Key) : Key.bare (extended more k) = Key.bare k := by
  induction k with
  | nil => rfl
  | cons p k ih =>
      cases k with
      | nil => rfl
      | cons q k => exact congrArg (_ :: ·) ih

theorem render_concat (k : Key) (p : KeyPart) :
    Key.render (k ++ [p]) = k.flatMap (fun q => q.render ++ ['.']) ++ p.render := by
  induction k with
  | nil => rfl
  | cons q k ih =>
      have hcons : Key.render (q :: k ++ [p]) = q.render ++ '.' :: Key.render (k ++ [p]) := by
        cases k <;> rfl
      rw [hcons, ih]
      simp

theorem render_extended (hne : k ≠ []) (more : Text) :
    Key.render (extended more k) = Key.render k ++ more := by
  obtain ⟨init, p, rfl⟩ : ∃ init p, k = init ++ [p] :=
    ⟨_, _, (List.dropLast_append_getLast hne).symm⟩
  simp [extended_concat, render_concat, KeyPart.render]

theorem WellWritten.extended (h : Key.WellWritten k) {blank : Text} (hblank : IsSpaces blank) :
    Key.WellWritten (extended blank k) := by
  obtain ⟨init, p, rfl⟩ : ∃ init p, k = init ++ [p] :=
    ⟨_, _, (List.dropLast_append_getLast h.ne_nil).symm⟩
  have hp := h.parts p (by simp)
  rw [extended_concat]
  refine ⟨by simp, List.forall_mem_append.2 ⟨fun q hq => h.parts q (by simp [hq]), ?_⟩⟩
  simpa using (⟨hp.before, hp.name, fun c hc => (List.mem_append.1 hc).elim (hp.after c) (hblank c)⟩ :
    KeyPart.WellWritten { p with after := p.after ++ blank })

end Key

/-- The value of an entry is read again, up to what ends the entry. -/
theorem Written.InlineWritten.read {w : Written} (h : w.InlineWritten depth) {c : Char}
    (hc : c = '\x7d' ∨ c = ',') (hn : w.text.length < n) (rest : Text) :
    ∃ text', gap false (w.space ++ (w.text ++ (w.tail ++ c :: rest))) =
        (w.space, w.text ++ (w.tail ++ c :: rest)) ∧
      value? n depth (w.text ++ (w.tail ++ c :: rest)) = some (w.value, text', w.tail ++ c :: rest) ∧
      gap false (w.tail ++ c :: rest) = (w.tail, c :: rest) := by
  have hspace := h.space.gap (show w.text ≠ [] by
    obtain ⟨c, t, htext, -⟩ := h.value.opens
    simp [htext]) (w.tail ++ c :: rest)
  have htail : gap false (w.tail ++ c :: rest) = (w.tail, c :: rest) :=
    gap_append h.tail (by rcases hc with rfl | rfl <;> simp [Stops, isSpace])
  have hfollows : Follows (w.tail ++ c :: rest) := by
    refine .gap h.tail (.cons ?_ ?_)
    · rcases hc with rfl | rfl <;> decide
    · rintro rfl
      exact absurd hc (by decide)
  obtain ⟨text', hvalue⟩ := h.value.reads n _ hn hfollows
  exact ⟨text', hspace, hvalue, htail⟩

/-- One entry behind a gap, and what its end decides. -/
theorem fields?_eq {e : Entry} (he : e.InlineWritten depth) {pre : Text} (hpre : IsGap pre)
    {c : Char} (hc : c = '\x7d' ∨ c = ',') {count : Nat} (hn : e.render.length < n)
    (hcount : e.render.length ≤ count) (rest : Text) :
    ∃ e', e'.bare = e.bare ∧
      fields? (value? n depth) (count + 1) (pre ++ e.render ++ c :: rest) =
        if c = '\x7d' then some ([e'], [], rest)
        else (fields? (value? n depth) count rest).map fun more =>
          (e' :: more.1, more.2.1, more.2.2) := by
  obtain ⟨k, more, hkey, hk, hmore⟩ := he.key
  obtain ⟨blank, more, rfl, hblank, hmore, hbegins⟩ := hmore.eq_append
  have hflush : Key.WellWritten (Key.extended blank (Key.flush k)) := hk.flush.extended hblank
  have hrender : e.render = e.lead ++ Key.indent k ++
      (Key.render (Key.extended blank (Key.flush k)) ++ (more ++ '=' :: (e.body.space ++
        (e.body.text ++ e.body.tail)))) := by
    simp [Entry.render, hkey, Key.render_extended hk.ne_nil, Key.render_extended hk.flush.ne_nil,
      Key.render_eq k]
  simp only [hrender, List.length_append, List.length_cons] at hn hcount
  obtain ⟨d, t, hopens, hd⟩ := hk.opens
  have hlead : ∀ s, gap false (pre ++ (e.lead ++ Key.indent k) ++
      (Key.render (Key.extended blank (Key.flush k)) ++ s)) =
        (pre ++ (e.lead ++ Key.indent k), Key.render (Key.extended blank (Key.flush k)) ++ s) := by
    refine fun s => gap_append (hpre.append (he.lead.append hk.indent.isGap)) ?_
    rw [Key.render_extended hk.flush.ne_nil, hopens]
    simpa using hd.stops
  have hends : ∀ s, Begins EndsKey (more ++ '=' :: s) := by
    intro s
    cases more with
    | nil => simp [EndsKey, EndsName, isBare, isSpace]
    | cons m more =>
        rcases (begins_cons _ _ _).1 hbegins with rfl | rfl <;>
          simp [EndsKey, EndsName, isBare, isSpace]
  have hread : ∀ s, key? (count + 1) (Key.render (Key.extended blank (Key.flush k)) ++
      (more ++ '=' :: s)) = some (Key.extended blank (Key.flush k), more ++ '=' :: s) :=
    fun s => hflush.read (by omega) (hends s)
  have hequals : ∀ s, gap false (more ++ '=' :: s) = (more, '=' :: s) :=
    fun s => gap_append hmore (by simp [Stops, isSpace])
  obtain ⟨text', hspace, hvalue, htail⟩ := he.body.read hc (show e.body.text.length < n by omega) rest
  refine ⟨⟨pre ++ (e.lead ++ Key.indent k),
    Key.extended more (Key.extended blank (Key.flush k)),
    ⟨e.body.space, text', e.body.value, e.body.tail⟩⟩, ?_, ?_⟩
  · simp [Entry.bare, Written.bare, hkey, Key.bare_extended, Key.bare_flush]
  · rw [hrender, show pre ++ (e.lead ++ Key.indent k ++ _) ++ c :: rest =
      pre ++ (e.lead ++ Key.indent k) ++ (Key.render (Key.extended blank (Key.flush k)) ++
        (more ++ '=' :: (e.body.space ++ (e.body.text ++ (e.body.tail ++ c :: rest))))) by simp,
      fields?]
    simp only [hlead]
    split
    next rest' heq =>
      rw [Key.render_extended hk.flush.ne_nil, hopens] at heq
      exact absurd (List.cons.inj heq).1 (hd.ne (by decide))
    next =>
      simp only [hread, hequals, afterEquals?, hspace, hvalue, htail, Option.bind_eq_bind,
        Option.bind_some]
      rcases hc with rfl | rfl
      · rfl
      · simp only [Char.reduceEq, if_false, Option.map_eq_bind]
        rfl

theorem intercalate_cons_cons (sep a b : Text) (rest : List Text) :
    List.intercalate sep (a :: b :: rest) = a ++ (sep ++ List.intercalate sep (b :: rest)) := by
  simp [List.intercalate]

/-- Entries with commas between them are read up to the closing brace. -/
theorem fields?_intercalate {entries : List Entry} (h : ∀ e ∈ entries, e.InlineWritten depth)
    {pre : Text} (hpre : IsGap pre) {count : Nat}
    (hn : (List.intercalate [','] (entries.map Entry.render)).length < n)
    (hcount : (List.intercalate [','] (entries.map Entry.render)).length < count) (rest : Text) :
    ∃ entries' last, entries'.map Entry.bare = entries.map Entry.bare ∧
      fields? (value? n depth) count
        (pre ++ List.intercalate [','] (entries.map Entry.render) ++ '\x7d' :: rest) =
          some (entries', last, rest) := by
  induction entries generalizing pre count with
  | nil =>
      obtain ⟨count, rfl⟩ := Nat.exists_eq_add_of_lt (Nat.zero_lt_of_lt hcount)
      have hgap : gap false (pre ++ '\x7d' :: rest) = (pre, '\x7d' :: rest) :=
        gap_append hpre (by simp [Stops, isSpace])
      exact ⟨[], pre, rfl, by simp [fields?, hgap]⟩
  | cons e entries ih =>
      obtain ⟨count, rfl⟩ := Nat.exists_eq_add_of_lt (Nat.zero_lt_of_lt hcount)
      have he : e.InlineWritten depth := h e List.mem_cons_self
      cases entries with
      | nil =>
          obtain ⟨e', hbare, hread⟩ := fields?_eq he hpre (.inl rfl) (n := n)
            (by simpa using hn) (Nat.le_of_lt_succ (by simpa using hcount)) rest
          exact ⟨[e'], [], by simp [hbare], by simpa using hread⟩
      | cons e₂ entries =>
          simp only [List.map_cons, intercalate_cons_cons, List.length_append,
            List.length_singleton] at hn hcount ih ⊢
          obtain ⟨entries', last, hbares, hmore⟩ := ih
            (fun e he => h e (List.mem_cons_of_mem _ he)) (.nil false) (by omega)
            (show _ < count by omega)
          obtain ⟨e', hbare, hread⟩ := fields?_eq he hpre (.inr rfl) (n := n) (by omega)
            (show _ ≤ count by omega)
            (List.intercalate [','] (e₂.render :: entries.map Entry.render) ++ '\x7d' :: rest)
          rw [List.nil_append] at hmore
          refine ⟨e' :: entries', last, by simp [hbare, hbares], ?_⟩
          simpa [hmore] using hread

/-- The names and the value that are stated. -/
def Statement.pair (s : Statement) : List Text × Value :=
  (s.way ++ [s.name], match s.what with
    | .value w => w.value
    | .table _ _ => .table [])

theorem pair_statement {e : Entry} (h : e.key ≠ []) :
    e.statement.pair = (e.names, e.body.value) := by
  have hnames : e.names ≠ [] := by simpa [Entry.names, Key.names] using h
  rw [Statement.pair, Entry.statement, List.getLast?_eq_some_getLast hnames]
  simp [List.dropLast_append_getLast, Written.bare]

theorem map_pair_eq (items : Branch) :
    items.entries.map (fun e => (e.names, e.body.value)) =
      (items.entries.map Entry.statement).map Statement.pair := by
  rw [List.map_map]
  exact List.map_congr_left fun e he => (pair_statement (Branch.key_ne_nil he)).symm

/-- Entries that say the same as those of a tree made by entries bring together the same. -/
theorem pairs_again {items : Branch} (h : items.Grouped Branch.maxPath) {entries : List Entry}
    (hbare : entries.map Entry.bare = items.entries.map Entry.bare) :
    ∃ items', Branch.addEntries? [] entries = some items' ∧
      items'.entries.map (fun e => (e.names, e.body.value)) =
        items.entries.map (fun e => (e.names, e.body.value)) := by
  obtain ⟨again, hagain, hstatements⟩ := Branch.addEntries?_entries h
  have hboth := Branch.addEntries?_bareIn [] entries
  rw [bareIn, hbare, hagain] at hboth
  obtain ⟨items', hadd, rfl⟩ := Option.map_eq_some_iff.1 hboth
  refine ⟨items', hadd, ?_⟩
  rw [map_pair_eq, map_pair_eq, ← hstatements]
  exact congrArg _ (statementsIn_bare [] items').symm

theorem spellsValue_inline {entries : List Entry} (h : ∀ e ∈ entries, e.InlineWritten depth)
    {last : Text} (hlast : IsGap last) (hinline : inline? entries last = some (v, text)) :
    SpellsValue (depth + 1) v text ∧ text.head? = some '\x7b' := by
  obtain ⟨items, hadd, hvalue⟩ := Option.bind_eq_some_iff.1 hinline
  obtain ⟨rfl, rfl⟩ : Value.table _ = v ∧ '\x7b' :: (last ++ (_ ++ ['\x7d'])) = text := by
    simpa using hvalue
  have hwritten : ∀ e ∈ items.entries, e.InlineWritten depth := by
    intro e he
    have hsound := Branch.sound_nil.addEntries? (fun e he => (h e he).lands) hadd
    obtain ⟨path, w, rfl, hleads⟩ := hsound.entries he
    exact hleads.inlineWritten
  refine ⟨⟨⟨'\x7b', _, rfl, by decide⟩, fun n rest hn _ => ?_⟩, rfl⟩
  simp only [List.length_cons, List.length_append] at hn
  obtain ⟨entries', last', hbare, hread⟩ := fields?_intercalate hwritten hlast (n := n) (by omega)
    (show _ < n by omega) rest
  obtain ⟨items', hadd', hpairs⟩ := pairs_again (Branch.grouped_of_addEntries? hadd) hbare
  simp only [List.append_assoc] at hread
  refine ⟨'\x7b' :: last' ++ List.intercalate [','] (items'.entries.map Entry.render) ++ ['\x7d'], ?_⟩
  simp only [value?, List.cons_append, List.append_assoc, List.nil_append, hread,
    Option.bind_eq_bind, Option.bind_some, inline?, hadd', hpairs]

/-! ### All values -/

/-- What was read as a value is read again from its text. -/
theorem rereads_value? (n depth : Nat) : Rereads depth (value? n depth) := by
  induction depth with
  | zero => exact fun s v text rest h => spellsValue_of_plain? h 0
  | succ depth ih =>
      intro s v text rest h
      unfold value? at h
      split at h
      next s =>
        obtain ⟨⟨items, text', rest'⟩, hitems, hvalue⟩ := Option.bind_eq_some_iff.1 h
        obtain ⟨rfl, rfl, -⟩ : .array items = v ∧ '[' :: text' = text ∧ rest' = rest := by
          simpa using hvalue
        exact ⟨spellsValue_array (spellsElements_of_elements? ih hitems), rfl⟩
      next s =>
        obtain ⟨⟨entries, last, rest'⟩, hfields, hbehind⟩ := Option.bind_eq_some_iff.1 h
        obtain ⟨⟨v', text'⟩, hinline, hvalue⟩ := Option.bind_eq_some_iff.1 hbehind
        obtain ⟨rfl, rfl, -⟩ : v' = v ∧ text' = text ∧ rest' = rest := by simpa using hvalue
        obtain ⟨hentries, hlast⟩ := inlineWritten_of_fields? ih hfields
        obtain ⟨hspells, hhead⟩ := spellsValue_inline hentries hlast hinline
        exact ⟨hspells, hhead.symm⟩
      next => exact spellsValue_of_plain? h _

end DnsFilter.Toml
