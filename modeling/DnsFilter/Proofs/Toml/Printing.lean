import DnsFilter.Proofs.Toml.Listing
import DnsFilter.Proofs.Toml.Rereading

/-! What is printed of a document is read again. A document that was read is well written, its tree is
sound, and the document of a sound tree is well written. -/

namespace DnsFilter.Toml

/-! ### Documents that were read -/

variable {n : Nat} {s lead rest : Text}

theorem render_of_key? {k : Key} (h : key? n s = some (k, rest)) :
    Key.WellWritten k ∧ s = Key.render k ++ rest :=
  have ⟨hne, hparts, hs⟩ := wellWritten_of_key? h
  ⟨⟨hne, hparts⟩, hs⟩

theorem wellWritten_of_entry? {e : Entry} {before : Text}
    (hlead : gap false before = (lead, s)) (h : entry? n lead s = some (e, rest)) :
    e.WellWritten := by
  obtain ⟨⟨key, s₁⟩, hkey, hbehind⟩ := Option.bind_eq_some_iff.1 h
  obtain ⟨s₂, -, hbehind⟩ := Option.bind_eq_some_iff.1 hbehind
  obtain ⟨⟨v, text, s₃⟩, hv, hbehind⟩ := Option.bind_eq_some_iff.1 hbehind
  obtain ⟨⟨tail, s₄⟩, htail, he⟩ := Option.bind_eq_some_iff.1 hbehind
  obtain ⟨rfl, -⟩ := Prod.mk.inj (Option.some.inj he)
  obtain ⟨hwritten, rfl⟩ := render_of_key? hkey
  obtain ⟨c, t, hcons, hc⟩ := hwritten.eq_cons
  rw [hcons] at hlead
  exact ⟨(isGap_of_gap hlead hc).1, hwritten, (of_spaces rfl).2.1, (rereads_value? _ _ _ _ _ _ hv).1,
    isTail_of_lineTail? htail⟩

theorem wellWritten_of_header? {h : Header} {before : Text}
    (hlead : gap false before = (lead, s)) (hread : header? n lead s = some (h, rest)) :
    h.WellWritten := by
  unfold header? at hread
  split at hread
  next s =>
    obtain ⟨⟨key, s₁⟩, hkey, hbehind⟩ := Option.bind_eq_some_iff.1 hread
    simp only at hbehind
    split at hbehind
    next =>
      obtain ⟨s₂, -, hbehind⟩ := Option.bind_eq_some_iff.1 hbehind
      obtain ⟨⟨tail, s₃⟩, htail, he⟩ := Option.bind_eq_some_iff.1 hbehind
      obtain ⟨rfl, -⟩ := Prod.mk.inj (Option.some.inj he)
      exact ⟨(isGap_of_gap hlead (by decide)).1, (render_of_key? hkey).1,
        isTail_of_lineTail? htail⟩
    next => cases hbehind
  next s =>
    obtain ⟨⟨key, s₁⟩, hkey, hbehind⟩ := Option.bind_eq_some_iff.1 hread
    simp only at hbehind
    split at hbehind
    next =>
      obtain ⟨s₂, -, hbehind⟩ := Option.bind_eq_some_iff.1 hbehind
      obtain ⟨⟨tail, s₃⟩, htail, he⟩ := Option.bind_eq_some_iff.1 hbehind
      obtain ⟨rfl, -⟩ := Prod.mk.inj (Option.some.inj he)
      exact ⟨(isGap_of_gap hlead (by decide)).1, (render_of_key? hkey).1,
        isTail_of_lineTail? htail⟩
    next => cases hbehind
  next => cases hread

theorem wellWritten_of_entries? {entries : List Entry} (h : entries? n s = some (entries, rest)) :
    ∀ e ∈ entries, e.WellWritten := by
  induction n generalizing s entries rest with
  | zero => cases h
  | succ n ih =>
      rw [entries?] at h
      cases hlead : gap false s with
      | mk lead s₁ =>
          simp only [hlead] at h
          split at h
          next => obtain ⟨rfl, -⟩ := Prod.mk.inj (Option.some.inj h); simp
          next => obtain ⟨rfl, -⟩ := Prod.mk.inj (Option.some.inj h); simp
          next =>
            obtain ⟨⟨e, s₂⟩, he, hbehind⟩ := Option.bind_eq_some_iff.1 h
            obtain ⟨⟨more, s₃⟩, hmore, hall⟩ := Option.bind_eq_some_iff.1 hbehind
            obtain ⟨rfl, -⟩ := Prod.mk.inj (Option.some.inj hall)
            exact List.forall_mem_cons.2 ⟨ wellWritten_of_entry? hlead he, ih hmore⟩

theorem wellWritten_of_sections? {sections : List Section} {trailing : Text}
    (h : sections? n s = some (sections, trailing)) :
    (∀ t ∈ sections, t.WellWritten) ∧ ∃ after, GapText false after trailing := by
  induction n generalizing s sections trailing with
  | zero => cases h
  | succ n ih =>
      rw [sections?] at h
      cases hlead : gap false s with
      | mk lead s₁ =>
          simp only [hlead] at h
          split at h
          next =>
            obtain ⟨rfl, rfl⟩ := Prod.mk.inj (Option.some.inj h)
            obtain ⟨after, hgap, -⟩ := gapText_gap false s
            rw [hlead] at hgap
            exact ⟨by simp, after, hgap⟩
          next =>
            obtain ⟨⟨header, s₂⟩, hheader, hbehind⟩ := Option.bind_eq_some_iff.1 h
            obtain ⟨⟨entries, s₃⟩, hentries, hbehind⟩ := Option.bind_eq_some_iff.1 hbehind
            obtain ⟨⟨more, trailing'⟩, hmore, hall⟩ := Option.bind_eq_some_iff.1 hbehind
            obtain ⟨rfl, rfl⟩ := Prod.mk.inj (Option.some.inj hall)
            obtain ⟨hmore, htrailing⟩ := ih hmore
            exact ⟨List.forall_mem_cons.2
              ⟨⟨wellWritten_of_header? hlead hheader, wellWritten_of_entries? hentries⟩, hmore⟩,
              htrailing⟩

/-- A document that was read is well written. -/
theorem wellWritten_of_ofText? {d : Document} (h : Document.ofText? s = some d) :
    d.WellWritten := by
  obtain ⟨⟨root, s₁⟩, hroot, hbehind⟩ := Option.bind_eq_some_iff.1 h
  obtain ⟨⟨sections, trailing⟩, hsections, hd⟩ := Option.bind_eq_some_iff.1 hbehind
  obtain rfl := Option.some.inj hd
  obtain ⟨hall, htrailing⟩ := wellWritten_of_sections? hsections
  exact ⟨wellWritten_of_entries? hroot, hall, htrailing⟩

/-! ### Their trees -/

/-- A value of a document with the label of its entry, and a property of values. -/
def DocumentValue (Q : Value → Prop) (l : Label) (w : Written) : Prop :=
  l.WellWritten (GapText false false) IsSpaces ∧ w.WellWritten ∧ Q w.value

/-- A property of all values in a document. -/
structure Document.HasValues (Q : Value → Prop) (d : Document) : Prop where
  root : ∀ e ∈ d.root, Q e.body.value
  sections : ∀ s ∈ d.sections, ∀ e ∈ s.entries, Q e.body.value

variable {Q : Value → Prop}

theorem Key.WellWritten.labels {k : Key} (h : Key.WellWritten k) {lead : Text} (hlead : IsGap lead) :
    ∃ labels last, Label.ofKey lead k = labels ++ [last] ∧ (∀ l ∈ labels, l.NamesTable) ∧
      last.WellWritten (GapText false false) IsSpaces ∧
      (IsSpaces lead → last.WellWritten IsSpaces IsSpaces) := by
  obtain ⟨init, p, hk⟩ : ∃ init p, k = init ++ [p] :=
    ⟨_, _, (List.dropLast_append_getLast h.ne_nil).symm⟩
  have hp := h.parts p (by simp [hk])
  have hinit : ∀ q ∈ init, q.WellWritten := fun q hq => h.parts q (by simp [hk, hq])
  obtain ⟨labels, before, hlabels, htables, hbefore⟩ :=
    Label.ofParts_concat hinit p (lead ++ Key.indent k) true
  have hbefore : IsSpaces before := by
    rcases hbefore with rfl | rfl
    · exact isSpaces_nil
    · exact hp.before
  rw [← hk] at hlabels
  refine ⟨labels, _, hlabels, htables, ⟨hp.name, hbefore, isSpaces_nil, ?_⟩,
    fun hspaces => ⟨hp.name, hbefore, isSpaces_nil, ?_⟩⟩
  · simpa using ⟨hlead.append h.indent.isGap, hp.after⟩
  · simpa using ⟨fun c hc => (List.mem_append.1 hc).elim (hspaces c) (h.indent c), hp.after⟩

theorem Entry.WellWritten.lands {e : Entry} (h : e.WellWritten) (hQ : Q e.body.value) :
    e.Lands (DocumentValue Q) := by
  obtain ⟨labels, last, hlabels, htables, hlast, -⟩ := h.key.labels h.lead
  exact ⟨labels, last, hlabels, htables, hlast, h.body, hQ⟩

theorem Section.WellWritten.lands {s : Section} (h : s.WellWritten)
    (hQ : ∀ e ∈ s.entries, Q e.body.value) : s.Lands (DocumentValue Q) := by
  obtain ⟨labels, last, hlabels, htables, -, hlast⟩ := h.header.key.labels (.nil false)
  exact ⟨⟨labels, last, hlabels,
      List.forall_mem_append.2 ⟨htables, by simpa using hlast isSpaces_nil⟩⟩,
    fun _ => ⟨h.header.lead, h.header.tail⟩, fun e he => (h.entries e he).lands (hQ e he)⟩

theorem Document.WellWritten.sound {d : Document} (h : d.WellWritten) (hQ : d.HasValues Q)
    {tree : Branch} (htree : Branch.ofDocument? d = some tree) : tree.Sound (DocumentValue Q) :=
  Branch.sound_of_ofDocument? (fun e he => (h.root e he).lands (hQ.root e he))
    (fun s hs => (h.sections s hs).lands (hQ.sections s hs)) htree

/-! ### Documents of trees -/

theorem LeadsTo.wellWritten {path : List Label} {w : Written}
    (h : LeadsTo (DocumentValue Q) path w) :
    (entryOf path w).WellWritten ∧ Q (entryOf path w).body.value := by
  obtain ⟨way, last, rfl, hway, hlast, hw, hQ⟩ := h
  have hends : IsGap ((last.ends.getD ([], [' '])).1) ∧
      IsSpaces ((last.ends.getD ([], [' '])).2) := by
    cases hsome : last.ends with
    | none => exact ⟨.nil false, isSpaces_one⟩
    | some ends => exact hlast.ends ends hsome
  have hentry : entryOf (way ++ [last]) w = ⟨(last.ends.getD ([], [' '])).1,
      Label.parts (last.ends.getD ([], [' '])).2 true (way ++ [last]), w⟩ := by
    simp [entryOf, Label.toKey]
  rw [hentry]
  obtain ⟨hne, hparts⟩ := Label.wellWritten_parts hway hlast hends.2 true
  exact ⟨⟨hends.1, ⟨hne, hparts⟩, hw⟩, hQ⟩

theorem Branch.Sound.entries_wellWritten {items : Branch} (h : items.Sound (DocumentValue Q))
    {e : Entry} (he : e ∈ items.entries) : e.WellWritten ∧ Q e.body.value := by
  obtain ⟨path, w, rfl, hleads⟩ := h.entries he
  exact hleads.wellWritten

namespace Listed

variable {t : Listed} {ts : List Listed}

theorem Sound.toSection (h : t.Sound (DocumentValue Q)) (first : Bool) :
    (t.toSection first).WellWritten ∧ ∀ e ∈ t.entries, Q e.body.value := by
  obtain ⟨items, hitems, hentries⟩ := h.entries
  have hall : ∀ e ∈ t.entries, e.WellWritten ∧ Q e.body.value :=
    fun e he => hitems.entries_wellWritten (hentries ▸ he)
  obtain ⟨way, last, hpath⟩ : ∃ way last, t.path = way ++ [last] :=
    ⟨_, _, (List.dropLast_append_getLast h.ne_nil).symm⟩
  have hlabels := h.path
  rw [hpath, List.forall_mem_append, List.forall_mem_singleton] at hlabels
  obtain ⟨hway, hlast⟩ := hlabels
  have hends : IsSpaces ((last.ends.getD ([], [])).1) ∧ IsSpaces ((last.ends.getD ([], [])).2) := by
    cases hsome : last.ends with
    | none => exact ⟨isSpaces_nil, isSpaces_nil⟩
    | some ends => exact hlast.ends ends hsome
  obtain ⟨hne, hparts⟩ := Label.wellWritten_parts hway hlast hends.2 true
  obtain ⟨p, k, hk⟩ := List.exists_cons_of_ne_nil hne
  rw [hk, List.forall_mem_cons] at hparts
  have hkey : Key.WellWritten ({ p with before := (last.ends.getD ([], [])).1 } :: k) :=
    ⟨by simp, List.forall_mem_cons.2 ⟨⟨hends.1, hparts.1.name, hparts.1.after⟩, hparts.2⟩⟩
  have hwritten := h.form
  refine ⟨?_, fun e he => (hall e he).2⟩
  simp only [Listed.toSection, hpath, Label.toKey, List.getLast?_concat, Option.bind_some, hk]
  cases hf : t.form with
  | stated position lead tail =>
      rw [hf] at hwritten
      exact ⟨⟨hwritten.1, hkey, hwritten.2⟩, fun e he => (hall e he).1⟩
  | implied | dotted | added =>
      refine ⟨⟨?_, hkey, isTail_nil⟩, fun e he => (hall e he).1⟩
      cases first
      · exact .line (.nil false)
      · exact .nil false

end Listed

/-- The document of a sound tree is well written, and its values are those of the tree. -/
theorem Branch.Sound.toDocument {items : Branch} (h : items.Sound (DocumentValue Q)) {trailing : Text}
    (ht : ∃ after, GapText false after trailing) :
    (items.toDocument trailing).WellWritten ∧ (items.toDocument trailing).HasValues Q := by
  have hsections : ∀ s ∈ (items.toDocument trailing).sections,
      s.WellWritten ∧ ∀ e ∈ s.entries, Q e.body.value := by
    intro s hs
    obtain ⟨t, ht, -, first, rfl⟩ := Listed.of_mem_toSections hs
    exact (h.listed ((Listed.perm_sort _).subset ht)).toSection first
  exact ⟨⟨fun e he => (h.entries_wellWritten he).1, fun s hs => (hsections s hs).1, ht⟩,
    ⟨fun e he => (h.entries_wellWritten he).2, fun s hs => (hsections s hs).2⟩⟩

end DnsFilter.Toml
