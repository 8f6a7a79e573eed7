import DnsFilter.Proofs.Toml.Quotation

/-! Keys are read again as they are written, and what was read as a key can be written as one. -/

namespace DnsFilter.Toml

/-! ### Names -/

/-- A character a part of a key may begin with. -/
def OpensName (c : Char) : Prop := isBare c ∨ c = '"' ∨ c = '\''

theorem OpensName.ne {c d : Char} (h : OpensName c) (hd : ¬ OpensName d) : c ≠ d :=
  fun hcd => hd (hcd ▸ h)

instance : DecidablePred OpensName := fun _ => inferInstanceAs (Decidable (_ ∨ _ ∨ _))

theorem isPlain_of_isBare {c : Char} (h : isBare c) : isPlain c := by
  have hcontrol : ∀ n < 0x20, ¬ isBare (Char.ofNat n) := by decide
  have hlow : 0x20 ≤ c.toNat := by
    refine Nat.le_of_not_lt fun hlt => hcontrol c.toNat hlt ?_
    rwa [Char.ofNat_toNat]
  have hne : c ≠ '\x7f' := by
    rintro rfl
    exact absurd h (by decide)
  simp [isPlain, hlow, hne]

theorem OpensName.isPlain {c : Char} (h : OpensName c) : isPlain c := by
  rcases h with hbare | rfl | rfl
  · exact isPlain_of_isBare hbare
  · decide
  · decide

theorem OpensName.stops {c : Char} (h : OpensName c) : Stops false c := by
  refine ⟨h.ne (by decide), h.ne (by decide), fun hs => ?_, h.ne (by decide)⟩
  obtain rfl | rfl : c = ' ' ∨ c = '\t' := by simpa [isSpace] using hs
  all_goals exact absurd h (by decide)

/-- What ends a part of a key, apart from blank space and a dot. -/
def EndsName (c : Char) : Prop := ¬ isBare c ∧ c ≠ '"' ∧ c ≠ '\''

/-- A text that is read as a part of a key, whatever ends it. -/
structure SpellsName (name text : Text) : Prop where
  opens : ∃ c t, text = c :: t ∧ OpensName c
  reads : ∀ rest, Begins EndsName rest → keyName? (text ++ rest) = some (name, text, rest)

theorem readLine?_eq_none {c : Char} {s : Text} (hc : isBare c) :
    Quoted.readLine? (c :: s) = none := by
  have hd : c ≠ '"' := by rintro rfl; exact absurd hc (by decide)
  have hs : c ≠ '\'' := by rintro rfl; exact absurd hc (by decide)
  rw [Quoted.readLine?, Quoted.read?_eq_none hd hs]
  · exact fun _ h => hd (List.cons.inj h).1
  · exact fun _ h => hs (List.cons.inj h).1

theorem spellsName_bare {name : Text} (hne : name ≠ []) (hbare : ∀ c ∈ name, isBare c) :
    SpellsName name name := by
  match name with
  | [] => exact absurd rfl hne
  | c :: name =>
      have hc : isBare c := hbare c List.mem_cons_self
      refine ⟨⟨c, name, rfl, .inl hc⟩, fun rest hr => ?_⟩
      have hspan : (c :: name ++ rest).span isBare = (c :: name, rest) :=
        span_append hbare (hr.imp fun _ h => h.1)
      rw [List.cons_append] at hspan ⊢
      simp only [keyName?, readLine?_eq_none hc, hspan]
      rfl

theorem spellsName_of_keyName? {s name text rest : Text}
    (h : keyName? s = some (name, text, rest)) : s = text ++ rest ∧ SpellsName name text := by
  rw [keyName?] at h
  split at h
  next r hr =>
    obtain ⟨rfl, rfl, rfl⟩ : r.body = name ∧ r.text = text ∧ r.rest = rest := by simpa using h
    obtain ⟨hs, hq⟩ := Quoted.quotes_of_read? (Quoted.of_readLine? hr).1
    obtain ⟨c, t, htext, hc⟩ := hq.opens
    refine ⟨hs, ⟨c, t, htext, .inr hc⟩, fun rest hrest => ?_⟩
    simp [keyName?, Quoted.readLine?_append hr (hrest.imp fun _ h => h.2)]
  next hnone =>
    generalize hspan : s.span isBare = parts at h
    obtain ⟨bare, more⟩ := parts
    obtain ⟨hs, hbare, -⟩ := of_span hspan
    dsimp only at h
    split at h
    · cases h
    next hne =>
      obtain ⟨rfl, rfl, rfl⟩ : bare = name ∧ bare = text ∧ more = rest := by simpa using h
      exact ⟨hs, spellsName_bare (by simpa using hne) hbare⟩

/-! ### Keys -/

/-- A part of a key, with blank space around it. -/
structure KeyPart.WellWritten (p : KeyPart) : Prop where
  before : IsSpaces p.before
  name : SpellsName p.name p.text
  after : IsSpaces p.after

/-- What ends a key: a character that none of its parts may go on with, and no dot. -/
def EndsKey (c : Char) : Prop := EndsName c ∧ ¬ isSpace c ∧ c ≠ '.'

theorem endsName_of_isSpace {c : Char} (h : isSpace c) : EndsName c := by
  obtain rfl | rfl : c = ' ' ∨ c = '\t' := by simpa [isSpace] using h
  · exact ⟨by decide, by decide, by decide⟩
  · exact ⟨by decide, by decide, by decide⟩

namespace KeyPart.WellWritten

variable {p : KeyPart}

theorem begins (h : p.WellWritten) (rest : Text) :
    Begins (fun c => ¬ isSpace c) (p.text ++ rest) := by
  obtain ⟨c, t, htext, hc⟩ := h.name.opens
  rw [htext, List.cons_append, begins_cons]
  exact hc.stops.2.2.1

theorem length_pos (h : p.WellWritten) : 0 < p.render.length := by
  obtain ⟨c, t, htext, -⟩ := h.name.opens
  simp only [KeyPart.render, htext, List.length_append, List.length_cons]
  omega

/-- The steps in which one part is read. -/
theorem reads (h : p.WellWritten) {rest : Text}
    (hr : Begins (fun c => EndsName c ∧ ¬ isSpace c) rest) :
    spaces (p.render ++ rest) = (p.before, p.text ++ (p.after ++ rest)) ∧
      keyName? (p.text ++ (p.after ++ rest)) = some (p.name, p.text, p.after ++ rest) ∧
      spaces (p.after ++ rest) = (p.after, rest) := by
  refine ⟨?_, ?_, spaces_append h.after (hr.imp fun _ hc => hc.2)⟩
  · rw [KeyPart.render, List.append_assoc, List.append_assoc]
    exact spaces_append h.before (h.begins _)
  · exact h.name.reads _
      (Begins.append (fun c hc => endsName_of_isSpace (h.after c hc)) (hr.imp fun _ hc => hc.1))

theorem key?_last (h : p.WellWritten) (n : Nat) {rest : Text} (hr : Begins EndsKey rest) :
    key? (n + 1) (p.render ++ rest) = some ([p], rest) := by
  obtain ⟨hbefore, hname, hafter⟩ := h.reads (hr.imp fun _ hc => ⟨hc.1, hc.2.1⟩)
  simp only [key?, hbefore, hname, Option.bind_eq_bind, Option.bind_some, hafter]
  split
  next => exact absurd rfl ((begins_cons _ _ _).1 hr).2.2
  next => rfl

theorem key?_dot (h : p.WellWritten) (n : Nat) (rest : Text) :
    key? (n + 1) (p.render ++ '.' :: rest) = (key? n rest).map fun k => (p :: k.1, k.2) := by
  have hdot : Begins (fun c => EndsName c ∧ ¬ isSpace c) ('.' :: rest) := by
    simp [EndsName, isBare, isSpace]
  obtain ⟨hbefore, hname, hafter⟩ := h.reads hdot
  simp only [key?, hbefore, hname, Option.bind_eq_bind, Option.bind_some, hafter]
  cases key? n rest <;> rfl

end KeyPart.WellWritten

theorem length_le_render {k : Key} (h : ∀ p ∈ k, p.WellWritten) :
    k.length ≤ (Key.render k).length := by
  fun_induction Key.render k with
  | case1 => simp
  | case2 p => exact (h p List.mem_cons_self).length_pos
  | case3 p rest _ ih =>
      have hp := (h p List.mem_cons_self).length_pos
      have hrest := ih fun q hq => h q (List.mem_cons_of_mem _ hq)
      simp only [List.length_append, List.length_cons]
      omega

/-- A key is read as it is written, whatever ends it. -/
theorem key?_render {k : Key} (hne : k ≠ []) (h : ∀ p ∈ k, p.WellWritten) {n : Nat}
    (hn : k.length ≤ n) {rest : Text} (hr : Begins EndsKey rest) :
    key? n (Key.render k ++ rest) = some (k, rest) := by
  fun_induction Key.render k generalizing n with
  | case1 => exact absurd rfl hne
  | case2 p =>
      obtain ⟨n, rfl⟩ := Nat.exists_eq_add_of_le' hn
      exact (h p List.mem_cons_self).key?_last n hr
  | case3 p k hk ih =>
      rw [List.length_cons] at hn
      obtain ⟨n, rfl⟩ := Nat.exists_eq_add_of_le' (Nat.le_of_add_left_le hn)
      have hrest := ih (by simpa using hk) (fun q hq => h q (List.mem_cons_of_mem _ hq))
        (Nat.le_of_succ_le_succ hn)
      rw [List.append_assoc, List.cons_append, (h p List.mem_cons_self).key?_dot, hrest]
      rfl

/-- What was read as a key can be written as one. -/
theorem wellWritten_of_key? {n : Nat} {s rest : Text} {k : Key} (h : key? n s = some (k, rest)) :
    k ≠ [] ∧ (∀ p ∈ k, p.WellWritten) ∧ s = Key.render k ++ rest := by
  induction n generalizing s k with
  | zero => cases h
  | succ n ih =>
      rw [key?] at h
      generalize hbefore : spaces s = parts at h
      obtain ⟨before, s₁⟩ := parts
      obtain ⟨rfl, hb, -⟩ := of_spaces hbefore
      obtain ⟨⟨name, text, s₂⟩, hname, htail⟩ := Option.bind_eq_some_iff.1 h
      obtain ⟨rfl, hspells⟩ := spellsName_of_keyName? hname
      obtain ⟨after, s₃, hafter⟩ : ∃ a r, spaces s₂ = (a, r) := ⟨_, _, rfl⟩
      obtain ⟨rfl, ha, -⟩ := of_spaces hafter
      simp only [hafter] at htail
      have hpart : (⟨name, before, text, after⟩ : KeyPart).WellWritten := ⟨hb, hspells, ha⟩
      split at htail
      next rest' =>
        obtain ⟨⟨more, r⟩, hmore, htail⟩ := Option.bind_eq_some_iff.1 htail
        obtain ⟨rfl, rfl⟩ : _ :: more = k ∧ r = rest := by simpa using htail
        obtain ⟨hne, hall, rfl⟩ := ih hmore
        refine ⟨by simp, by simpa using ⟨hpart, hall⟩, ?_⟩
        simp [Key.render, KeyPart.render]
      next =>
        obtain ⟨rfl, rfl⟩ : [_] = k ∧ s₃ = rest := by simpa using htail
        refine ⟨by simp, by simpa using hpart, ?_⟩
        simp [Key.render, KeyPart.render]

end DnsFilter.Toml
