import DnsFilter.Toml.Reader
import Mathlib.Data.List.TakeDrop
import Mathlib.Data.List.TakeWhile

/-! What stands between the parts of a document: blank space, line ends and comments. Each kind is
read again in full where it stands before something that does not go on with it. -/

namespace DnsFilter.Toml

/-- A text that is over, or begins with a character of this kind. -/
def Begins (p : Char → Prop) (s : Text) : Prop := ∀ c ∈ s.head?, p c

@[simp] theorem begins_nil (p : Char → Prop) : Begins p [] := by simp [Begins]

@[simp] theorem begins_cons (p : Char → Prop) (c : Char) (s : Text) :
    Begins p (c :: s) ↔ p c := by
  simp [Begins]

theorem Begins.imp {p q : Char → Prop} (hpq : ∀ c, p c → q c) {s : Text} (h : Begins p s) :
    Begins q s := fun c hc => hpq c (h c hc)

theorem Begins.append {p : Char → Prop} {s t : Text} (hs : ∀ c ∈ s, p c) (ht : Begins p t) :
    Begins p (s ++ t) := by
  cases s with
  | nil => exact ht
  | cons c s => simpa using hs c (by simp)

/-! ### Runs of characters of one kind -/

theorem span_append {p : Char → Bool} {s rest : Text} (hs : ∀ c ∈ s, p c)
    (hr : Begins (fun c => ¬ p c) rest) : (s ++ rest).span p = (s, rest) := by
  have h : rest.takeWhile p = [] ∧ rest.dropWhile p = rest := by
    cases rest with
    | nil => simp
    | cons c rest => simp_all
  rw [List.span_eq_takeWhile_dropWhile, List.takeWhile_append_of_pos hs,
    List.dropWhile_append_of_pos hs, h.1, h.2, List.append_nil]

theorem of_span {p : Char → Bool} {s a r : Text} (h : s.span p = (a, r)) :
    s = a ++ r ∧ (∀ c ∈ a, p c) ∧ Begins (fun c => ¬ p c) r := by
  rw [List.span_eq_takeWhile_dropWhile, Prod.mk.injEq] at h
  obtain ⟨rfl, rfl⟩ := h
  refine ⟨List.takeWhile_append_dropWhile.symm, fun c hc => List.mem_takeWhile_imp hc, ?_⟩
  intro c hc hp
  have := List.head?_dropWhile_not p s
  simp_all

/-! ### Blank space -/

def IsSpaces (s : Text) : Prop := ∀ c ∈ s, isSpace c

theorem isSpaces_nil : IsSpaces [] := by simp [IsSpaces]

theorem isSpaces_one : IsSpaces [' '] := by simp [IsSpaces, isSpace]

theorem spaces_append {s rest : Text} (hs : IsSpaces s)
    (hr : Begins (fun c => ¬ isSpace c) rest) : spaces (s ++ rest) = (s, rest) :=
  span_append hs hr

theorem of_spaces {s a r : Text} (h : spaces s = (a, r)) :
    s = a ++ r ∧ IsSpaces a ∧ Begins (fun c => ¬ isSpace c) r := of_span h

/-! ### Gaps -/

/-- Texts made of blank space, line ends and comments. The first flag says whether a comment is open
before the text, the second one whether one is open behind it. -/
inductive GapText : Bool → Bool → Text → Prop
  | nil (inComment : Bool) : GapText inComment inComment []
  | line {before after : Bool} {g : Text} (rest : GapText false after g) :
      GapText before after ('\n' :: g)
  | space {after : Bool} {c : Char} {g : Text} (hc : isSpace c) (rest : GapText false after g) :
      GapText false after (c :: g)
  | hash {after : Bool} {g : Text} (rest : GapText true after g) : GapText false after ('#' :: g)
  | comment {after : Bool} {c : Char} {g : Text} (hc : isPlain c) (rest : GapText true after g) :
      GapText true after (c :: g)

/-- A gap that leaves no comment open. -/
abbrev IsGap (g : Text) : Prop := GapText false false g

theorem ne_return_of_isPlain {c : Char} (h : isPlain c) : c ≠ '\r' := by
  rintro rfl
  exact absurd h (by decide)

theorem ne_newline_of_isPlain {c : Char} (h : isPlain c) : c ≠ '\n' := by
  rintro rfl
  exact absurd h (by decide)

theorem isPlain_of_isSpace {c : Char} (h : isSpace c) : isPlain c := by
  obtain rfl | rfl : c = ' ' ∨ c = '\t' := by simpa [isSpace] using h
  all_goals decide

theorem gap_cons_of_ne_return {c : Char} (hc : c ≠ '\r') (inComment : Bool) (rest : Text) :
    gap inComment (c :: rest) =
      if c == '\n' then (c :: (gap false rest).1, (gap false rest).2)
      else if (inComment && isPlain c) || (!inComment && isSpace c) then
        (c :: (gap inComment rest).1, (gap inComment rest).2)
      else if !inComment && c == '#' then (c :: (gap true rest).1, (gap true rest).2)
      else ([], c :: rest) := by
  rw [gap]
  intro rest' h
  exact absurd h hc

/-- A character that no gap goes on with. -/
def Stops (inComment : Bool) (c : Char) : Prop :=
  c ≠ '\r' ∧ c ≠ '\n' ∧ if inComment then ¬ isPlain c else ¬ isSpace c ∧ c ≠ '#'

theorem gap_of_begins {inComment : Bool} {s : Text} (h : Begins (Stops inComment) s) :
    gap inComment s = ([], s) := by
  cases s with
  | nil => rw [gap]
  | cons c s =>
      obtain ⟨hr, hn, hc⟩ := (begins_cons _ _ _).1 h
      rw [gap_cons_of_ne_return hr]
      cases inComment <;> simp_all

theorem gap_append {before after : Bool} {g rest : Text} (hg : GapText before after g)
    (hr : Begins (Stops after) rest) : gap before (g ++ rest) = (g, rest) := by
  induction hg with
  | nil => exact gap_of_begins hr
  | line _ ih => simp [gap_cons_of_ne_return, ih hr]
  | space hc _ ih =>
      have hn := ne_newline_of_isPlain (isPlain_of_isSpace hc)
      simp [gap_cons_of_ne_return (ne_return_of_isPlain (isPlain_of_isSpace hc)), ih hr, hc, hn]
  | hash _ ih => simp [gap_cons_of_ne_return, ih hr, isSpace]
  | comment hc _ ih =>
      simp [gap_cons_of_ne_return (ne_return_of_isPlain hc), ih hr, hc, ne_newline_of_isPlain hc]

/-- What was split off is a gap. It stopped for what follows, unless that is a carriage return that
may belong to a line end. -/
theorem gapText_gap (before : Bool) (s : Text) :
    ∃ after, GapText before after (gap before s).1 ∧
      Begins (fun c => c ≠ '\r' → Stops after c) (gap before s).2 := by
  fun_induction gap before s with
  | case1 b => exact ⟨b, .nil b, by simp⟩
  | case2 b rest g r hgr ih =>
      obtain ⟨after, hg, hr⟩ := hgr ▸ ih
      exact ⟨after, .line hg, hr⟩
  | case3 b c rest hne hc g r hgr ih =>
      obtain ⟨after, hg, hr⟩ := hgr ▸ ih
      obtain rfl : c = '\n' := by simpa using hc
      exact ⟨after, .line hg, hr⟩
  | case4 b c rest hne hc hin g r hgr ih =>
      obtain ⟨after, hg, hr⟩ := hgr ▸ ih
      cases b with
      | false => exact ⟨after, .space (by simpa using hin) hg, hr⟩
      | true => exact ⟨after, .comment (by simpa using hin) hg, hr⟩
  | case5 b c rest hne hc hin hash g r hgr ih =>
      obtain ⟨after, hg, hr⟩ := hgr ▸ ih
      obtain ⟨rfl, rfl⟩ : b = false ∧ c = '#' := by simpa using hash
      exact ⟨after, .hash hg, hr⟩
  | case6 b c rest hne hc hin hash =>
      refine ⟨b, .nil b, ?_⟩
      cases b <;> simp_all [Stops]

/-- Before a character that may stand in a comment, no comment is open. -/
theorem isGap_of_gap {s g rest : Text} {c : Char} (h : gap false s = (g, c :: rest))
    (hc : isPlain c) : IsGap g ∧ Stops false c := by
  obtain ⟨after, hg, hr⟩ := gapText_gap false s
  rw [h] at hg hr
  have hs : Stops after c := by simpa [ne_return_of_isPlain hc] using hr
  cases after with
  | false => exact ⟨hg, hs⟩
  | true => exact absurd hc hs.2.2

theorem GapText.append {a b c : Bool} {g h : Text} (hg : GapText a b g) (hh : GapText b c h) :
    GapText a c (g ++ h) := by
  induction hg with
  | nil => exact hh
  | line _ ih => exact .line (ih hh)
  | space hc _ ih => exact .space hc (ih hh)
  | hash _ ih => exact .hash (ih hh)
  | comment hc _ ih => exact .comment hc (ih hh)

theorem IsSpaces.isGap {s : Text} (h : IsSpaces s) : IsGap s := by
  induction s with
  | nil => exact .nil false
  | cons c s ih => exact .space (h c (by simp)) (ih fun d hd => h d (by simp [hd]))

/-! ### Ends of lines -/

/-- A comment, if there is one. -/
def IsComment (s : Text) : Prop := s = [] ∨ ∃ body, s = '#' :: body ∧ ∀ c ∈ body, isPlain c

/-- What may stand behind a value or a header on its line: blank space and a comment. -/
def IsTail (s : Text) : Prop :=
  ∃ blank comment, s = blank ++ comment ∧ IsSpaces blank ∧ IsComment comment

theorem isTail_nil : IsTail [] := ⟨[], [], rfl, isSpaces_nil, .inl rfl⟩

theorem lineTail?_append {s : Text} (h : IsTail s) (rest : Text) :
    lineTail? (s ++ '\n' :: rest) = some (s, rest) := by
  obtain ⟨blank, comment, rfl, hb, rfl | ⟨body, rfl, hc⟩⟩ := h
  · have hs : spaces (blank ++ '\n' :: rest) = (blank, '\n' :: rest) :=
      spaces_append hb (by simp [isSpace])
    simp [lineTail?, hs, afterLineEnd?]
  · have hs : spaces (blank ++ '#' :: (body ++ '\n' :: rest)) =
        (blank, '#' :: (body ++ '\n' :: rest)) := spaces_append hb (by simp [isSpace])
    have hp : (body ++ '\n' :: rest).span isPlain = (body, '\n' :: rest) :=
      span_append hc (by simp [isPlain])
    simp only [lineTail?, List.append_assoc, List.cons_append, hs, hp, afterLineEnd?,
      Option.map_some]

theorem isTail_of_lineTail? {s tail rest : Text} (h : lineTail? s = some (tail, rest)) :
    IsTail tail := by
  obtain ⟨blank, s', hblank⟩ : ∃ blank s', spaces s = (blank, s') := ⟨_, _, rfl⟩
  have hb : IsSpaces blank := (of_spaces hblank).2.1
  unfold lineTail? at h
  rw [hblank] at h
  rcases s' with _ | ⟨c, s'⟩
  · obtain ⟨rfl, -⟩ : blank = tail ∧ [] = rest := by simpa using h
    exact ⟨blank, [], (List.append_nil _).symm, hb, .inl rfl⟩
  · by_cases hc : c = '#'
    · subst hc
      have hcomment : IsComment ('#' :: (s'.span isPlain).1) := .inr ⟨_, rfl, (of_span rfl).2.1⟩
      refine ⟨blank, _, ?_, hb, hcomment⟩
      dsimp only at h
      split at h
      · exact (congrArg Prod.fst (Option.some.inj h)).symm
      · obtain ⟨r, -, hr⟩ := Option.map_eq_some_iff.1 h
        exact (congrArg Prod.fst hr).symm
    · obtain ⟨-, rfl⟩ : afterLineEnd? (c :: s') = some rest ∧ blank = tail := by simpa [hc] using h
      exact ⟨blank, [], (List.append_nil _).symm, hb, .inl rfl⟩

end DnsFilter.Toml
