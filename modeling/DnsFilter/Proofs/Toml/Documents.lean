import DnsFilter.Proofs.Toml.Bare
import DnsFilter.Proofs.Toml.Keys
import DnsFilter.Proofs.Toml.Values

/-! Documents are read as they are written. A document whose parts are well written, each in the sense
that it is read again where it stands, is printed as a text that is read as a document saying the
same. -/

namespace DnsFilter.Toml

/-! ### Well written documents -/

structure Key.WellWritten (k : Key) : Prop where
  ne_nil : k ≠ []
  parts : ∀ p ∈ k, p.WellWritten

structure Written.WellWritten (w : Written) : Prop where
  space : IsSpaces w.space
  value : SpellsValue maxDepth w.value w.text
  tail : IsTail w.tail

structure Entry.WellWritten (e : Entry) : Prop where
  lead : IsGap e.lead
  key : Key.WellWritten e.key
  body : e.body.WellWritten

structure Header.WellWritten (h : Header) : Prop where
  lead : IsGap h.lead
  key : Key.WellWritten h.key
  tail : IsTail h.tail

structure Section.WellWritten (s : Section) : Prop where
  header : s.header.WellWritten
  entries : ∀ e ∈ s.entries, e.WellWritten

structure Document.WellWritten (d : Document) : Prop where
  root : ∀ e ∈ d.root, e.WellWritten
  sections : ∀ s ∈ d.sections, s.WellWritten
  trailing : ∃ after, GapText false after d.trailing

/-! ### Keys at the beginning of a line -/

namespace Key

/-- The blank space before a key. -/
def indent (k : Key) : Text := (k.head?.map (·.before)).getD []

/-- A key without the blank space before it. -/
def flush : Key → Key
  | [] => []
  | p :: k => { p with before := [] } :: k

theorem bare_flush (k : Key) : Key.bare (flush k) = Key.bare k := by
  cases k <;> rfl

variable {k : Key}

theorem render_eq (k : Key) : Key.render k = indent k ++ Key.render (flush k) := by
  match k with
  | [] => rfl
  | [p] => simp [Key.render, flush, indent, KeyPart.render]
  | p :: q :: k => simp [Key.render, flush, indent, KeyPart.render]

theorem WellWritten.indent (h : Key.WellWritten k) : IsSpaces (indent k) := by
  match k with
  | [] => exact isSpaces_nil
  | p :: k => exact (h.parts p List.mem_cons_self).before

theorem WellWritten.flush (h : Key.WellWritten k) : Key.WellWritten (flush k) := by
  match k with
  | [] => exact absurd rfl h.ne_nil
  | p :: k =>
      have hp := h.parts p List.mem_cons_self
      refine ⟨by simp [Key.flush], ?_⟩
      simp only [Key.flush, List.mem_cons, forall_eq_or_imp]
      exact ⟨⟨isSpaces_nil, hp.name, hp.after⟩, fun q hq => h.parts q (List.mem_cons_of_mem _ hq)⟩

theorem WellWritten.opens (h : Key.WellWritten k) :
    ∃ c t, Key.render (Key.flush k) = c :: t ∧ OpensName c := by
  match k with
  | [] => exact absurd rfl h.ne_nil
  | p :: k =>
      obtain ⟨c, t, htext, hc⟩ := (h.parts p List.mem_cons_self).name.opens
      cases k with
      | nil => exact ⟨c, t ++ p.after, by simp [Key.flush, Key.render, KeyPart.render, htext], hc⟩
      | cons q k =>
          exact ⟨c, t ++ p.after ++ '.' :: Key.render (q :: k),
            by simp [Key.flush, Key.render, KeyPart.render, htext], hc⟩

theorem WellWritten.begins (h : Key.WellWritten k) (rest : Text) :
    Begins (· ≠ '[') (Key.render k ++ rest) := by
  obtain ⟨c, t, hopens, hc⟩ := h.opens
  rw [render_eq, List.append_assoc]
  refine Begins.append (fun d hd => ?_) (by simpa [hopens] using hc.ne (by decide))
  rintro rfl
  exact absurd (h.indent _ hd) (by decide)

theorem WellWritten.read (h : Key.WellWritten k) {n : Nat} (hn : (Key.render k).length ≤ n)
    {rest : Text} (hr : Begins EndsKey rest) : key? n (Key.render k ++ rest) = some (k, rest) :=
  key?_render h.ne_nil h.parts ((length_le_render h.parts).trans hn) hr

end Key

/-! ### Entries -/

theorem IsTail.follows {tail : Text} (h : IsTail tail) (rest : Text) :
    Follows (tail ++ '\n' :: rest) := by
  obtain ⟨blank, comment, rfl, hblank, hcomment⟩ := h
  rw [List.append_assoc]
  refine .gap hblank.isGap ?_
  rcases hcomment with rfl | ⟨body, rfl, -⟩
  · exact .cons (by decide) (by simp)
  · exact .cons (by decide) (by simp)

namespace Entry

variable {e : Entry}

/-- What of an entry stands behind its lead. -/
def line (e : Entry) : Text :=
  Key.render (Key.flush e.key) ++ '=' :: (e.body.space ++ (e.body.text ++ e.body.tail))

theorem render_eq (e : Entry) : e.render = e.lead ++ Key.indent e.key ++ e.line := by
  simp [render, line, Key.render_eq e.key]

/-- The lead of an entry is all that comes before its key. -/
theorem WellWritten.gap (h : e.WellWritten) (rest : Text) :
    ∃ c t, e.line ++ rest = c :: t ∧ OpensName c ∧
      gap false (e.render ++ rest) = (e.lead ++ Key.indent e.key, e.line ++ rest) := by
  obtain ⟨c, t, hkey, hc⟩ := h.key.opens
  refine ⟨c, t ++ '=' :: (e.body.space ++ (e.body.text ++ e.body.tail)) ++ rest,
    by simp [line, hkey], hc, ?_⟩
  rw [render_eq, List.append_assoc]
  refine gap_append (h.lead.append h.key.indent.isGap) ?_
  simpa [line, hkey] using hc.stops

theorem WellWritten.read (h : e.WellWritten) {n : Nat} (hn : e.render.length < n)
    (lead rest : Text) :
    ∃ e', entry? n lead (e.line ++ '\n' :: rest) = some (e', rest) ∧ e'.bare = e.bare := by
  simp only [render_eq, line, List.length_append, List.length_cons] at hn
  have hequals : ∀ s, Begins EndsKey ('=' :: s) := by simp [EndsKey, EndsName, isBare, isSpace]
  have hkey := h.key.flush.read (n := n) (by omega) (hequals
    (e.body.space ++ (e.body.text ++ (e.body.tail ++ '\n' :: rest))))
  obtain ⟨c, t, htext, hc⟩ := h.body.value.opens
  have hspace : spaces (e.body.space ++ (e.body.text ++ (e.body.tail ++ '\n' :: rest))) =
      (e.body.space, e.body.text ++ (e.body.tail ++ '\n' :: rest)) :=
    spaces_append h.body.space (by simpa [htext] using hc.not_isSpace)
  obtain ⟨text', hvalue⟩ := h.body.value.reads n _ (by omega) (h.body.tail.follows rest)
  refine ⟨⟨lead, Key.flush e.key, ⟨e.body.space, text', e.body.value, e.body.tail⟩⟩, ?_, ?_⟩
  · simp [ entry?, line, hkey, afterEquals?, hspace, hvalue, lineTail?_append h.body.tail]
  · simp [Entry.bare, Key.bare_flush, Written.bare]

end Entry

/-- A text at whose beginning entries end: behind a gap, it is over or a header comes. -/
def EndsEntries (s : Text) : Prop := Begins (· = '[') (gap false s).2

theorem entries?_end {s : Text} (h : EndsEntries s) (n : Nat) :
    entries? (n + 1) s = some ([], s) := by
  rw [EndsEntries] at h
  rw [entries?]
  generalize gap false s = parts at h
  obtain ⟨lead, rest⟩ := parts
  match rest with
  | [] => rfl
  | c :: rest =>
      obtain rfl : c = '[' := by simpa using h
      rfl

theorem entries?_cons {e : Entry} (h : e.WellWritten) {n : Nat} (hn : e.render.length ≤ n)
    (rest : Text) : ∃ e', e'.bare = e.bare ∧
      entries? (n + 1) (e.render ++ '\n' :: rest) =
        (entries? n rest).map fun more => (e' :: more.1, more.2) := by
  obtain ⟨c, t, hline, hc, hgap⟩ := h.gap ('\n' :: rest)
  obtain ⟨e', hread, hbare⟩ := h.read (Nat.lt_succ_of_le hn) (e.lead ++ Key.indent e.key) rest
  refine ⟨e', hbare, ?_⟩
  rw [entries?]
  simp only [hgap]
  split
  next hnil => simp [hnil] at hline
  next hbracket =>
    rw [hline] at hbracket
    exact absurd (List.cons.inj hbracket).1 (hc.ne (by decide))
  next =>
    simp only [hread, Option.bind_eq_bind, Option.bind_some]
    cases entries? n rest <;> rfl

/-- Entries are read as they are printed, up to the first header. -/
theorem entries?_renderLines {entries : List Entry} (h : ∀ e ∈ entries, e.WellWritten)
    {rest : Text} (hr : EndsEntries rest) {n : Nat} (hn : (renderLines entries).length < n) :
    ∃ entries', entries? n (renderLines entries ++ rest) = some (entries', rest) ∧
      entries'.map Entry.bare = entries.map Entry.bare := by
  induction entries generalizing n with
  | nil =>
      obtain ⟨n, rfl⟩ := Nat.exists_eq_add_of_lt hn
      exact ⟨[], entries?_end hr _, rfl⟩
  | cons e entries ih =>
      have hlines : renderLines (e :: entries) = e.render ++ '\n' :: renderLines entries := by
        simp [renderLines]
      rw [hlines, List.length_append, List.length_cons] at hn
      obtain ⟨n, rfl⟩ := Nat.exists_eq_add_of_lt (Nat.zero_lt_of_lt hn)
      rw [Nat.zero_add] at hn ⊢
      obtain ⟨entries', hmore, hbare⟩ := ih (fun e' he => h e' (List.mem_cons_of_mem _ he))
        (show (renderLines entries).length < n by omega)
      obtain ⟨e', he, hread⟩ := entries?_cons (h e List.mem_cons_self) (show _ ≤ n by omega)
        (renderLines entries ++ rest)
      refine ⟨e' :: entries', ?_, by simp [he, hbare]⟩
      rw [hlines, List.append_assoc, List.cons_append, hread, hmore]
      rfl

/-! ### Headers -/

namespace Header

variable {h : Header}

/-- What of a header stands behind its lead. -/
def line (h : Header) : Text :=
  (if h.isArray then '[' :: '[' :: Key.render h.key ++ [']', ']']
    else '[' :: Key.render h.key ++ [']']) ++ h.tail

theorem render_eq (h : Header) : h.render = h.lead ++ h.line ++ ['\n'] := by
  simp [render, line]

theorem line_eq_cons (h : Header) : ∃ t, h.line = '[' :: t := by
  cases hisArray : h.isArray <;> simp [line, hisArray]

/-- The lead of a header is all that comes before its bracket. -/
theorem WellWritten.gap (hw : h.WellWritten) (rest : Text) :
    gap false (h.render ++ rest) = (h.lead, h.line ++ '\n' :: rest) := by
  obtain ⟨t, hline⟩ := h.line_eq_cons
  rw [render_eq, List.append_assoc, List.append_assoc, List.singleton_append]
  exact gap_append hw.lead (by simp [hline, Stops, isSpace])

theorem WellWritten.read (hw : h.WellWritten) {n : Nat} (hn : h.render.length < n)
    (rest : Text) : header? n h.lead (h.line ++ '\n' :: rest) = some (h, rest) := by
  have hclose : ∀ s, Begins EndsKey (']' :: s) := by simp [EndsKey, EndsName, isBare, isSpace]
  have hkey : ∀ s, key? n (Key.render h.key ++ ']' :: s) = some (h.key, ']' :: s) := by
    refine fun s => hw.key.read ?_ (hclose s)
    rw [render_eq, line] at hn
    split at hn <;> simp only [List.length_append, List.length_cons] at hn <;> omega
  obtain ⟨lead, isArray, key, tail⟩ := h
  cases isArray with
  | true => simp [line, header?, hkey, lineTail?_append hw.tail]
  | false =>
      have hbegins := hw.key.begins (']' :: (tail ++ '\n' :: rest))
      simp only [line, Bool.false_eq_true, if_false, List.cons_append, List.append_assoc,
        List.nil_append] at hkey ⊢
      rw [header?]
      · simp [hkey, lineTail?_append hw.tail]
      · intro s hs
        rw [hs] at hbegins
        simp at hbegins

end Header

/-! ### The whole document -/

def renderSections (sections : List Section) : Text :=
  sections.flatMap fun s => s.header.render ++ renderLines s.entries

theorem endsEntries_trailing {trailing : Text} {after : Bool}
    (h : GapText false after trailing) : EndsEntries trailing := by
  have hgap := gap_append h (begins_nil _)
  rw [List.append_nil] at hgap
  simp [EndsEntries, hgap]

theorem endsEntries_sections {sections : List Section} (h : ∀ s ∈ sections, s.WellWritten)
    {trailing : Text} (ht : EndsEntries trailing) :
    EndsEntries (renderSections sections ++ trailing) := by
  match sections with
  | [] => exact ht
  | s :: sections =>
      obtain ⟨t, hline⟩ := s.header.line_eq_cons
      have hgap := (h s List.mem_cons_self).header.gap
        (renderLines s.entries ++ (renderSections sections ++ trailing))
      simp [EndsEntries, renderSections] at hgap ⊢
      simp [hgap, hline]

theorem sections?_cons {s : Section} (h : s.WellWritten) {n : Nat}
    (hn : (s.header.render ++ renderLines s.entries).length ≤ n) {rest : Text}
    (hr : EndsEntries rest) : ∃ s', s'.bare = s.bare ∧
      sections? (n + 1) (s.header.render ++ (renderLines s.entries ++ rest)) =
        (sections? n rest).map fun more => (s' :: more.1, more.2) := by
  rw [List.length_append] at hn
  have hheader := h.header.read (show s.header.render.length < n + 1 by omega)
    (renderLines s.entries ++ rest)
  obtain ⟨entries, hentries, hbare⟩ := entries?_renderLines h.entries hr
    (show (renderLines s.entries).length < n + 1 by
      rw [Header.render_eq, List.length_append] at hn
      omega)
  refine ⟨⟨s.header, entries⟩, by simp [Section.bare, hbare], ?_⟩
  obtain ⟨t, hline⟩ := s.header.line_eq_cons
  rw [sections?]
  simp only [h.header.gap]
  split
  next hnil => simp [hline] at hnil
  next =>
    simp only [hheader, hentries, Option.bind_eq_bind, Option.bind_some]
    cases sections? n rest <;> rfl

theorem sections?_render {sections : List Section} (h : ∀ s ∈ sections, s.WellWritten)
    {trailing : Text} {after : Bool} (ht : GapText false after trailing) {n : Nat}
    (hn : (renderSections sections).length < n) :
    ∃ sections', sections? n (renderSections sections ++ trailing) = some (sections', trailing) ∧
      sections'.map Section.bare = sections.map Section.bare := by
  induction sections generalizing n with
  | nil =>
      obtain ⟨n, rfl⟩ := Nat.exists_eq_add_of_lt hn
      have hgap := gap_append ht (begins_nil _)
      rw [List.append_nil] at hgap
      exact ⟨[], by simp [renderSections, sections?, hgap], rfl⟩
  | cons s sections ih =>
      have hrest : ∀ s ∈ sections, s.WellWritten := fun t ht => h t (List.mem_cons_of_mem _ ht)
      have hrender : renderSections (s :: sections) =
          s.header.render ++ (renderLines s.entries ++ renderSections sections) := by
        simp [renderSections]
      obtain ⟨n, rfl⟩ := Nat.exists_eq_add_of_lt (Nat.zero_lt_of_lt hn)
      rw [hrender, Header.render_eq] at hn
      simp only [List.length_append, List.length_cons] at hn
      obtain ⟨sections', hmore, hbare⟩ := ih hrest (n := n) (by omega)
      obtain ⟨s', hs, hread⟩ := sections?_cons (h s List.mem_cons_self) (n := n)
        (by simp only [Header.render_eq, List.length_append, List.length_cons]; omega)
        (endsEntries_sections hrest (endsEntries_trailing ht))
      refine ⟨s' :: sections', ?_, by simp [hs, hbare]⟩
      rw [hrender, Nat.zero_add, List.append_assoc, List.append_assoc, hread, hmore]
      rfl

theorem render_eq (d : Document) :
    d.render = renderLines d.root ++ (renderSections d.sections ++ d.trailing) := by
  simp [Document.render, renderSections]

theorem begins_render {d : Document} (h : d.WellWritten) :
    Begins (fun c => OpensName c ∨ c = '[') (gap false d.render).2 := by
  obtain ⟨after, ht⟩ := h.trailing
  rw [render_eq]
  match hroot : d.root with
  | [] => exact (endsEntries_sections h.sections (endsEntries_trailing ht)).imp fun _ => .inr
  | e :: entries =>
      obtain ⟨c, t, hline, hc, hgap⟩ := (h.root e (hroot ▸ List.mem_cons_self)).gap
        ('\n' :: (renderLines entries ++ (renderSections d.sections ++ d.trailing)))
      simp only [renderLines, List.flatMap_cons, List.append_assoc, List.cons_append,
        List.nil_append] at hline hgap ⊢
      rw [hgap, hline, begins_cons]
      exact .inl hc

/-- No document begins with a byte-order mark. -/
theorem withoutMark_render {d : Document} (h : d.WellWritten) :
    withoutMark d.render = d.render := by
  have hbegins := begins_render h
  unfold withoutMark
  split
  next rest heq =>
    rw [heq, gap_of_begins (by simp [Stops, isSpace]), begins_cons] at hbegins
    exact absurd hbegins (by decide)
  next => rfl

/-- A well written document is printed as a text that is read as a document saying the same. -/
theorem ofText?_render {d : Document} (h : d.WellWritten) :
    ∃ d', Document.ofText? d.render = some d' ∧ d'.bare = d.bare := by
  obtain ⟨after, ht⟩ := h.trailing
  have hlength : d.render.length < d.render.length + 1 := Nat.lt_succ_self _
  generalize hn : d.render.length + 1 = n at hlength
  rw [render_eq, List.length_append, List.length_append] at hlength
  obtain ⟨root, hroot, hbareRoot⟩ := entries?_renderLines h.root
    (endsEntries_sections h.sections (endsEntries_trailing ht))
    (show (renderLines d.root).length < n by omega)
  obtain ⟨sections, hsections, hbareSections⟩ := sections?_render h.sections ht
    (show (renderSections d.sections).length < n by omega)
  refine ⟨⟨root, sections, d.trailing⟩, ?_, by simp [Document.bare, hbareRoot, hbareSections]⟩
  rw [Document.ofText?, withoutMark_render h, hn, render_eq, hroot]
  simp [hsections]

end DnsFilter.Toml
