import DnsFilter.Proofs.Lookup
import DnsFilter.Proofs.Toml.Atoms
import DnsFilter.Proofs.Toml.Outline

/-! Settings that are written are read again, whatever strings, numbers and lists they are: the document
in which each group has its header is well written, and makes the groups of what it says. -/

namespace DnsFilter.Toml

/-! ### Its spelling -/

theorem gapBefore_of_spellsValue {depth : Nat} {v : Value} {g text : Text} (hg : IsGap g)
    (h : SpellsValue depth v text) : GapBefore g text := by
  obtain ⟨c, t, rfl, hc⟩ := h.opens
  exact ⟨false, hg, by simpa using hc.stops⟩

theorem spellsValue_write (s : Text) (depth : Nat) :
    SpellsValue depth (.string s) (Quoted.write s) :=
  spellsValue_of_quotes (Quoted.quotes_write s) depth

/-- Elements on lines of their own. -/
theorem spellsElements_lines (items : List Text) (depth : Nat) :
    SpellsElements depth (items.map .string)
      ('\n' :: items.flatMap (fun s => "    ".toList ++ Quoted.write s ++ [',', '\n']) ++ [']']) := by
  induction items with
  | nil => exact spellsElements_nil (.line (.nil false))
  | cons s items ih =>
      have hspaces : IsSpaces "    ".toList := by simp [IsSpaces, isSpace]
      have hgap : IsGap ('\n' :: "    ".toList) := .line hspaces.isGap
      have hs := spellsValue_write s depth
      have hmore := spellsElements_more (gapBefore_of_spellsValue hgap hs) hs (.nil false) ih
      simpa using hmore

theorem spellsValue_listText (items : List Text) (depth : Nat) :
    SpellsValue (depth + 1) (.array (items.map .string)) (listText items) := by
  match items with
  | [] => exact spellsValue_array (spellsElements_nil (.nil false))
  | [s] =>
      have hs := spellsValue_write s depth
      have hlast := spellsElements_last (gapBefore_of_spellsValue (.nil false) hs) hs (.nil false)
      exact spellsValue_array (by simpa using hlast)
  | s :: s' :: items => exact spellsValue_array (spellsElements_lines (s :: s' :: items) depth)

theorem spellsValue_render (v : Setting) : SpellsValue maxDepth v.value v.render := by
  cases v with
  | text s => exact spellsValue_write s _
  | integer n => exact spellsValue_of_atom (Atom.spells_integerText n) _
  | boolean b => exact spellsValue_of_atom (Atom.spells_booleanText b) _
  | texts items => exact spellsValue_listText items _

/-- A setting is well written behind an equals sign. -/
theorem Setting.wellWritten (v : Setting) {tail : Text} (h : IsTail tail) :
    (v.written tail).WellWritten := ⟨isSpaces_one, spellsValue_render v, h⟩

theorem IsName.spells {name : Text} (h : IsName name) : SpellsName name name :=
  spellsName_bare h.1 h.2

theorem Setting.wellWritten_entry {s : Text × Setting} (h : IsName s.1) :
    (Setting.entry s).WellWritten where
  lead := .nil false
  key := ⟨by simp [Setting.entry], by
    simpa [Setting.entry] using ⟨isSpaces_nil, h.spells, isSpaces_one⟩⟩
  body := s.2.wellWritten isTail_nil

namespace Groups

variable {groups : Groups}

theorem wellWritten_toSection {lead : Text} (hlead : IsGap lead) {g : Text × List (Text × Setting)}
    (hname : IsName g.1) (hsettings : ∀ s ∈ g.2, IsName s.1) : (toSection lead g).WellWritten where
  header := ⟨hlead, ⟨by simp [toSection], by
    simpa [toSection] using ⟨isSpaces_nil, hname.spells, isSpaces_nil⟩⟩, isTail_nil⟩
  entries := by
    simp only [toSection, List.forall_mem_map]
    exact fun s hs => Setting.wellWritten_entry (hsettings s hs)

/-- The sections of the document are those of the groups. -/
theorem exists_lead {s : Section} (h : s ∈ groups.document.sections) :
    ∃ lead, IsGap lead ∧ ∃ g ∈ groups, s = toSection lead g := by
  cases groups with
  | nil => cases h
  | cons g groups =>
      rcases List.mem_cons.1 h with rfl | h
      · exact ⟨[], .nil false, g, List.mem_cons_self, rfl⟩
      · obtain ⟨g', hg, rfl⟩ := List.mem_map.1 h
        exact ⟨['\n'], .line (.nil false), g', List.mem_cons_of_mem _ hg, rfl⟩

theorem root_document (groups : Groups) : groups.document.root = [] := by cases groups <;> rfl

theorem WellFormed.wellWritten (h : groups.WellFormed) : groups.document.WellWritten where
  root := by simp [root_document]
  sections := by
    intro s hs
    obtain ⟨lead, hlead, g, hg, rfl⟩ := exists_lead hs
    refine wellWritten_toSection hlead (h.names.2 _ (List.mem_map_of_mem hg)) fun s hs => ?_
    exact (h.settings g hg).2 _ (List.mem_map_of_mem hs)
  trailing := ⟨false, by cases groups <;> exact .nil false⟩

theorem WellFormed.hasValues (h : groups.WellFormed) : groups.document.HasValues (isWide ·) where
  root := by simp [root_document]
  sections := by
    intro s hs e he
    obtain ⟨lead, -, g, hg, rfl⟩ := exists_lead hs
    obtain ⟨s, hs, rfl⟩ := List.mem_map.1 he
    exact Value.isWithin_mono (by decide) (by decide) _ (h.numbers g hg s hs)

/-! ### Its sense -/

open Statement

/-- Statements of names of which each is stated once: they make a tree in which each name stands for what
is stated of it. -/
theorem run?_keyed {β : Type} {l : List (Text × β)} (h : (l.map (·.1)).Nodup)
    (what : β → Assertion) (node : β → Node)
    (hmade : ∀ p ∈ l, (what p.2).stand? none = some (node p.2)) :
    ∃ items, run? [] (l.map fun p => ⟨[], p.1, what p.2⟩) = some items ∧
      ∀ name, items.at? name = (l.lookup name).map node := by
  have hfold : ∀ name, ((l.map fun p => (⟨[], p.1, what p.2⟩ : Statement)).filter
      (·.first = name)).foldlM act none = some ((l.lookup name).map node) := by
    intro name
    have hfilter : l.filter ((fun s => decide (s.first = name)) ∘
        fun p => (⟨[], p.1, what p.2⟩ : Statement)) = ((l.lookup name).map (name, ·)).toList := by
      rw [← filter_key_eq_lookup h]
      refine List.filter_congr fun p _ => ?_
      by_cases hp : p.1 = name <;> simp [Statement.first, hp]
    rw [List.filter_map, hfilter]
    cases hlookup : l.lookup name with
    | none => rfl
    | some b =>
        have hstand := hmade _ (mem_of_lookup hlookup)
        simp [act, effect, hstand]
  obtain ⟨items, hrun⟩ := exists_run? [] _ fun name => ⟨_, hfold name⟩
  refine ⟨items, hrun, fun name => ?_⟩
  have hat := foldlM_act_of_run? hrun name
  exact Option.some.inj (hat.symm.trans (hfold name))

/-- The entries of a group make a table of its settings. -/
theorem addEntries?_settings {settings : List (Text × Setting)} (h : (settings.map (·.1)).Nodup) :
    ∃ items, Branch.addEntries? [] ((settings.map Setting.entry).map Entry.bare) = some items ∧
      ∀ key, (items.at? key).map Node.read = (settings.lookup key).map Setting.value := by
  obtain ⟨items, hrun, hat⟩ := run?_keyed h (fun v => .value (v.written []).bare)
    (fun v => .value (v.written []).bare) fun _ _ => rfl
  refine ⟨items, ?_, fun key => ?_⟩
  · have hfits : ∀ e ∈ settings.map Setting.entry, e.statement.Fits :=
      List.forall_mem_map.2 fun s _ => Nat.zero_le _
    rw [addEntries?_bare_eq (List.forall_mem_map.2 fun s _ => by simp [Setting.entry]), if_pos hfits,
      List.map_map, ← hrun]
    rfl
  · rw [hat, Option.map_map]
    rfl

theorem statements_document (groups : Groups) : groups.document.statements =
    groups.map fun g => ⟨[], g.1, .table false ((g.2.map Setting.entry).map Entry.bare)⟩ := by
  cases groups with
  | nil => rfl
  | cons g groups =>
      show (toSection [] g).statement :: (groups.map (toSection ['\n'])).map Section.statement = _
      rw [List.map_map]
      rfl

theorem WellFormed.sense? (h : groups.WellFormed) :
    ∃ sense, Branch.sense? groups.document.bare = some sense ∧ sense.root = groups.root := by
  have hentries : ∀ g ∈ groups, ∃ items,
      Branch.addEntries? [] ((g.2.map Setting.entry).map Entry.bare) = some items ∧
      ∀ key, (items.at? key).map Node.read = (g.2.lookup key).map Setting.value :=
    fun g hg => addEntries?_settings (h.settings g hg).1
  obtain ⟨sense, hrun, hat⟩ := run?_keyed h.names.1
    (fun settings => .table false ((settings.map Setting.entry).map Entry.bare))
    (fun settings => .table (.stated 0 [] [])
      ((Branch.addEntries? [] ((settings.map Setting.entry).map Entry.bare)).getD []))
    fun g hg => by
      obtain ⟨items, hitems, -⟩ := hentries g hg
      simp only [Assertion.stand?, Assertion.found?, Option.bind_eq_bind, Option.bind_some, hitems,
        Option.getD_some]
  have hkeyed : groups.document.Keyed := by
    refine ⟨by simp [root_document], fun s hs => ?_⟩
    obtain ⟨lead, -, g, -, rfl⟩ := exists_lead hs
    simp [toSection]
  have hfits : ∀ s ∈ groups.document.statements, s.Fits := by
    rw [statements_document]
    exact List.forall_mem_map.2 fun g _ => Nat.zero_le _
  refine ⟨sense, ?_, funext fun name => ?_⟩
  · rw [sense?_eq hkeyed, if_pos hfits, statements_document, hrun]
  · rw [Branch.root, hat, Groups.root, Option.map_map]
    cases hlookup : groups.lookup name with
    | none => rfl
    | some settings =>
        obtain ⟨items, hitems, hread⟩ := hentries _ (mem_of_lookup hlookup)
        simp only [Option.map_some, Function.comp_apply, hitems, Option.getD_some, Node.part]
        rw [show (fun key => (items.at? key).map Node.read) = _ from funext hread]

end Groups

/-- Of groups that are written, what they say is read. -/
theorem Format.lawful_standard : Format.standard.Lawful := by
  intro shape groups h
  show Format.standard.read? shape groups.document.render = some groups.root
  rw [read?_render h.wellWritten]
  exact (root?_eq_some_iff h.hasValues).2 h.sense?

end DnsFilter.Toml
