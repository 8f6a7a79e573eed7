import DnsFilter.Proofs.Lookup
import DnsFilter.Proofs.Toml.Bare
import DnsFilter.Proofs.Toml.Keys
import DnsFilter.Toml.Edit

/-! Trees whose labels are spelled as keys are. In a table each name stands once, and what is put into
a table keeps this so: entries and headers, and at last whole documents, lead from sound trees to
sound ones. The values of a tree, with their labels, may be of any kind `P`. -/

namespace DnsFilter.Toml

/-! ### Labels -/

/-- A label that can be written as a part of a key; of a key that ends with it, `lead` holds of what
stands before and `behind` of what stands behind. -/
structure Label.WellWritten (lead behind : Text → Prop) (l : Label) : Prop where
  name : SpellsName l.name l.text
  before : IsSpaces l.before
  after : IsSpaces l.after
  ends : ∀ ends ∈ l.ends, lead ends.1 ∧ behind ends.2

/-- A label of a table: around its key, within the brackets of a header, is blank space only. -/
abbrev Label.NamesTable : Label → Prop := Label.WellWritten IsSpaces IsSpaces

theorem Label.wellWritten_plain {lead behind : Text → Prop} {name : Text} (hne : name ≠ [])
    (hbare : ∀ c ∈ name, isBare c) : (Label.plain name).WellWritten lead behind :=
  ⟨spellsName_bare hne hbare, isSpaces_nil, isSpaces_nil, by simp [Label.plain]⟩

/-- The labels of a key: all but the last one may be those of tables, and the last one has around it
what stands around the key. -/
theorem Label.ofParts_concat {k : Key} (h : ∀ q ∈ k, q.WellWritten) (p : KeyPart) (lead : Text)
    (isFirst : Bool) : ∃ labels before,
      ofParts lead isFirst (k ++ [p]) =
        labels ++ [⟨p.name, p.text, before, [], some (lead, p.after)⟩] ∧
      (∀ l ∈ labels, l.NamesTable) ∧ (before = [] ∨ before = p.before) := by
  induction k generalizing isFirst with
  | nil => exact ⟨[], _, rfl, by simp, by cases isFirst <;> simp⟩
  | cons q k ih =>
      obtain ⟨labels, before, hlabels, htables, hbefore⟩ :=
        ih (fun r hr => h r (List.mem_cons_of_mem _ hr)) false
      have hq : q.WellWritten := h q List.mem_cons_self
      refine ⟨⟨q.name, q.text, if isFirst then [] else q.before, q.after, none⟩ :: labels, before, ?_,
        ?_, hbefore⟩
      · rw [List.cons_append, ofParts, hlabels, List.cons_append]
        simp
      · refine List.forall_mem_cons.2 ⟨⟨hq.name, ?_, hq.after, by simp⟩, htables⟩
        split
        · exact isSpaces_nil
        · exact hq.before

theorem Label.wellWritten_parts {path : List Label} {l : Label}
    (hpath : ∀ m ∈ path, m.NamesTable) {lead behind : Text → Prop} (hl : l.WellWritten lead behind)
    {last : Text} (hlast : IsSpaces last) (isFirst : Bool) :
    parts last isFirst (path ++ [l]) ≠ [] ∧
      ∀ p ∈ parts last isFirst (path ++ [l]), p.WellWritten := by
  induction path generalizing isFirst with
  | nil =>
      refine ⟨by simp [parts], ?_⟩
      simp only [List.nil_append, parts, List.mem_singleton, forall_eq]
      refine ⟨?_, hl.name, hlast⟩
      dsimp only
      split
      · exact isSpaces_nil
      · exact hl.before
  | cons m path ih =>
      have hm : m.NamesTable := hpath m List.mem_cons_self
      have hne : path ++ [l] ≠ [] := by simp
      obtain ⟨k, rest, hrest⟩ := List.exists_cons_of_ne_nil hne
      rw [List.cons_append, hrest, parts, ← hrest]
      · refine ⟨by simp, List.forall_mem_cons.2 ⟨⟨?_, hm.name, hm.after⟩,
          (ih (fun q hq => hpath q (List.mem_cons_of_mem _ hq)) false).2⟩⟩
        dsimp only
        split
        · exact isSpaces_nil
        · exact hm.before
      · simp

/-- What holds before a run, and is kept by each step, holds after it. -/
theorem of_foldlM {α β : Type} {Q : β → Prop} {step : β → α → Option β} {xs : List α}
    (hstep : ∀ b, ∀ a ∈ xs, ∀ b', Q b → step b a = some b' → Q b') {b b' : β} (hb : Q b)
    (h : xs.foldlM step b = some b') : Q b' := by
  induction xs generalizing b with
  | nil =>
      obtain rfl : b = b' := by simpa using h
      exact hb
  | cons a xs ih =>
      rw [List.foldlM_cons] at h
      obtain ⟨next, hnext, hrest⟩ := Option.bind_eq_some_iff.1 h
      exact ih (fun c x hx => hstep c x (List.mem_cons_of_mem _ hx))
        (hstep b a List.mem_cons_self next hb hnext) hrest

/-! ### Names in a table -/

namespace Branch

def names (items : Branch) : List Text := items.map fun p => p.1.name

@[simp] theorem names_nil : names [] = [] := rfl

@[simp] theorem names_cons (k : Label) (m : Node) (rest : Branch) :
    names ((k, m) :: rest) = k.name :: names rest := rfl

@[simp] theorem names_append (items others : Branch) :
    names (items ++ others) = names items ++ names others := List.map_append

variable {l : Label} {n : Node} {items items' : Branch} {name : Text}

theorem at?_cons (k : Label) (m : Node) (rest : Branch) (name : Text) :
    at? ((k, m) :: rest) name = if k.name = name then some m else at? rest name := by
  by_cases h : k.name = name <;> simp [at?, h]

theorem at?_eq_none : at? items name = none ↔ name ∉ names items := by
  simp only [at?, names, Option.map_eq_none_iff, List.find?_eq_none, List.mem_map, beq_iff_eq,
    not_exists, not_and]

theorem mem_of_at? (h : at? items name = some n) : ∃ k, (k, n) ∈ items ∧ k.name = name := by
  obtain ⟨⟨k, m⟩, hfind, rfl⟩ := Option.map_eq_some_iff.1 h
  exact ⟨k, List.mem_of_find?_eq_some hfind, by simpa using List.find?_some hfind⟩

theorem at?_of_mem {p : Label × Node} (h : (names items).Nodup) (hp : p ∈ items) :
    at? items p.1.name = some p.2 := by
  induction items with
  | nil => cases hp
  | cons q items ih =>
      obtain ⟨k, m⟩ := q
      rw [names_cons, List.nodup_cons] at h
      rw [at?_cons]
      rcases List.mem_cons.1 hp with rfl | hp
      · exact if_pos rfl
      · rw [if_neg, ih h.2 hp]
        exact fun hk => h.1 (List.mem_map.2 ⟨p, hp, hk.symm⟩)

theorem set_nil (l : Label) (n : Node) : set l n [] = [(l, n)] := rfl

theorem set_cons (l : Label) (n : Node) (k : Label) (m : Node) (items : Branch) :
    set l n ((k, m) :: items) = if k.name = l.name then (k, n) :: items else (k, m) :: set l n items :=
  rfl

/-- A change at a name is one of what the name stands for. -/
theorem alter?_eq (l : Label) (change : Option Node → Option Node) (items : Branch) :
    alter? l change items = (change (at? items l.name)).map (set l · items) := by
  induction items with
  | nil => rfl
  | cons p items ih =>
      obtain ⟨k, m⟩ := p
      rw [alter?, at?_cons]
      by_cases h : k.name = l.name
      · simp [h, set_cons]
      · simp only [beq_iff_eq, h, if_false, ih, Option.map_map]
        congr 1
        funext n
        simp [set_cons, h]

/-- Where a name is set it keeps its label, and with it the name. -/
theorem name_setLabel (l : Label) (n : Node) (old : Option (Label × Node))
    (hold : ∀ p ∈ old, p.1.name = l.name) : ((old.map (·.1)).getD l, n).1.name = l.name := by
  cases old with
  | none => rfl
  | some p => exact hold p rfl

theorem at?_set (l : Label) (n : Node) (items : Branch) (name : Text) :
    at? (set l n items) name = if l.name = name then some n else at? items name := by
  rw [at?, set, find?_upsert (name_setLabel l n) items name]
  split <;> rfl

theorem nodup_set (h : (names items).Nodup) : (names (set l n items)).Nodup :=
  nodup_map_upsert (name_setLabel l n) h

/-- What stands in a table after a name was set: what did before, or the new node behind the label it
came with or the one that was there. -/
theorem of_mem_set {p : Label × Node} (h : p ∈ set l n items) :
    p ∈ items ∨ p.2 = n ∧
      (p.1 = l ∧ at? items l.name = none ∨ ∃ m, at? items l.name = some m ∧ (p.1, m) ∈ items) := by
  rcases of_mem_upsert h with hold | rfl
  · exact .inl hold
  · refine .inr ⟨rfl, ?_⟩
    rw [at?]
    cases hfind : items.find? fun q => q.1.name == l.name with
    | none => exact .inl ⟨rfl, rfl⟩
    | some q => exact .inr ⟨q.2, rfl, List.mem_of_find?_eq_some hfind⟩

end Branch

/-! ### Sound trees -/

def TableForm.WellWritten : TableForm → Prop
  | .stated _ lead tail => IsGap lead ∧ IsTail tail
  | _ => True

/-- A node behind its label, if all in it is well written, each name stands once in each table, and
`P` holds of each value with its label. -/
inductive Node.Sound (P : Label → Written → Prop) : Label → Node → Prop
  | value {l : Label} {w : Written} (h : P l w) : Sound P l (.value w)
  | table {l : Label} {form : TableForm} {items : List (Label × Node)} (label : l.NamesTable)
      (written : form.WellWritten) (nodup : (Branch.names items).Nodup)
      (nodes : ∀ p ∈ items, Sound P p.1 p.2) : Sound P l (.table form items)
  | tables {l : Label} {elements : List (TableForm × List (Label × Node))} (label : l.NamesTable)
      (ne_nil : elements ≠ []) (written : ∀ e ∈ elements, e.1.WellWritten)
      (nodup : ∀ e ∈ elements, (Branch.names e.2).Nodup)
      (nodes : ∀ e ∈ elements, ∀ p ∈ e.2, Sound P p.1 p.2) : Sound P l (.tables elements)

structure Branch.Sound (P : Label → Written → Prop) (items : Branch) : Prop where
  nodup : (names items).Nodup
  nodes : ∀ p ∈ items, p.2.Sound P p.1

namespace Branch

variable {P : Label → Written → Prop} {l : Label} {n : Node} {items items' : Branch}

theorem sound_nil : Sound P [] := ⟨List.nodup_nil, by simp⟩

/-- A node may be put where it is sound behind each label that it may come to stand behind. -/
theorem Sound.set (h : items.Sound P) (hnew : at? items l.name = none → n.Sound P l)
    (hold : ∀ k m, at? items l.name = some m → m.Sound P k → n.Sound P k) :
    (set l n items).Sound P := by
  refine ⟨nodup_set h.nodup, fun p hp => ?_⟩
  rcases of_mem_set hp with hp | ⟨hn, ⟨hk, hnone⟩ | ⟨m, hm, hmem⟩⟩
  · exact h.nodes p hp
  · exact hn ▸ hk ▸ hnew hnone
  · exact hn ▸ hold p.1 m hm (h.nodes _ hmem)

/-! ### Ways into a tree -/

/-- What a change inside a table at the end of a path does to the node that the path goes through
first. -/
def descend (way : TableForm) (change : TableForm → Branch → Option Branch) (path : List Label) :
    Option Node → Option Node
  | none => (inside? way change path way []).map (.table way ·)
  | some (.value _) => none
  | some (.table form inner) =>
      match way, form with
      | .dotted, .stated _ _ _ => none
      | _, _ => (inside? way change path form inner).map (.table form ·)
  | some (.tables elements) =>
      match elements.getLast? with
      | some (form, inner) =>
          (inside? way change path form inner).map fun inner =>
            .tables (elements.dropLast ++ [(form, inner)])
      | none => none

theorem inside?_cons (way : TableForm) (change : TableForm → Branch → Option Branch) (l : Label)
    (path : List Label) (form : TableForm) (items : Branch) :
    inside? way change (l :: path) form items =
      (descend way change path (at? items l.name)).map (set l · items) := by
  rw [inside?, alter?_eq]
  rfl

/-- What becomes of a table that is descended into. -/
theorem of_descend_table {way form : TableForm} {change : TableForm → Branch → Option Branch}
    {path : List Label} {inner : Branch} {n : Node}
    (h : descend way change path (some (.table form inner)) = some n) :
    ∃ inner', inside? way change path form inner = some inner' ∧ n = .table form inner' := by
  have hsome : (inside? way change path form inner).map (.table form ·) = some n := by
    cases way with
    | dotted =>
        cases form with
        | stated => simp [descend] at h
        | implied | dotted | added => exact h
    | implied | added | stated => cases form <;> exact h
  obtain ⟨inner', hinner, rfl⟩ := Option.map_eq_some_iff.1 hsome
  exact ⟨inner', hinner, rfl⟩

theorem Sound.inside? {way : TableForm} {change : TableForm → Branch → Option Branch}
    (hway : way.WellWritten)
    (hchange : ∀ form items items', items.Sound P → change form items = some items' →
      items'.Sound P)
    {path : List Label} (hpath : ∀ l ∈ path, l.NamesTable) {form : TableForm}
    (h : items.Sound P) (hinside : inside? way change path form items = some items') :
    items'.Sound P := by
  induction path generalizing form items items' with
  | nil => exact hchange form items items' h hinside
  | cons l path ih =>
      have hl : l.NamesTable := hpath l List.mem_cons_self
      have hrest := fun m hm => hpath m (List.mem_cons_of_mem _ hm)
      rw [inside?_cons] at hinside
      obtain ⟨n, hn, rfl⟩ := Option.map_eq_some_iff.1 hinside
      refine h.set (fun hnone => ?_) fun k m hm hk => ?_
      · rw [hnone] at hn
        obtain ⟨inner, hinner, rfl⟩ := Option.map_eq_some_iff.1 hn
        have hsound := ih hrest sound_nil hinner
        exact .table hl hway hsound.nodup hsound.nodes
      · rw [hm] at hn
        cases hk with
        | value => cases hn
        | table hlabel hwritten hnodup hnodes =>
            obtain ⟨inner', hinner, rfl⟩ := of_descend_table hn
            have hsound := ih hrest ⟨hnodup, hnodes⟩ hinner
            exact .table hlabel hwritten hsound.nodup hsound.nodes
        | @tables _ elements hlabel hne hwritten hnodup hnodes =>
            rw [descend] at hn
            cases hlast : elements.getLast? with
            | none => simp [hlast] at hn
            | some element =>
                obtain ⟨form', inner⟩ := element
                simp only [hlast] at hn
                obtain ⟨inner', hinner, rfl⟩ := Option.map_eq_some_iff.1 hn
                have hmem := List.mem_of_getLast? hlast
                have hsound := ih hrest ⟨hnodup _ hmem, hnodes _ hmem⟩ hinner
                have hall : ∀ e ∈ elements.dropLast ++ [(form', inner')],
                    e.1.WellWritten ∧ Sound P e.2 := by
                  simp only [List.forall_mem_append, List.forall_mem_singleton]
                  exact ⟨fun e he =>
                    have he' := List.dropLast_subset _ he
                    ⟨hwritten e he', hnodup e he', hnodes e he'⟩, hwritten _ hmem, hsound⟩
                exact .tables hlabel (by simp) (fun e he => (hall e he).1)
                  (fun e he => (hall e he).2.nodup) fun e he => (hall e he).2.nodes

theorem Sound.along? {way : TableForm} {change : TableForm → Branch → Option Branch}
    (hway : way.WellWritten)
    (hchange : ∀ form items items', items.Sound P → change form items = some items' →
      items'.Sound P)
    {path : List Label} (hpath : ∀ l ∈ path, l.NamesTable) (h : items.Sound P)
    (halong : along? way path change items = some items') : items'.Sound P := by
  rw [Branch.along?] at halong
  split at halong
  · exact h.inside? hway hchange hpath halong
  · cases halong

end Branch

/-! ### Entries and headers -/

/-- An entry whose key can be gone along, to a place where its value may stand. -/
def Entry.Lands (P : Label → Written → Prop) (e : Entry) : Prop :=
  ∃ labels last, Label.ofKey e.lead e.key = labels ++ [last] ∧ (∀ l ∈ labels, l.NamesTable) ∧
    P last e.body

/-- A section whose header can be written for a table, and whose entries land in it. -/
structure Section.Lands (P : Label → Written → Prop) (s : Section) : Prop where
  header : ∃ labels last, Label.ofKey [] s.header.key = labels ++ [last] ∧
    ∀ l ∈ labels ++ [last], l.NamesTable
  stated : ∀ position,
    (TableForm.stated position s.header.lead s.header.tail).WellWritten
  entries : ∀ e ∈ s.entries, e.Lands P

namespace Branch

variable {P : Label → Written → Prop} {items items' : Branch}

theorem Sound.addEntry? (h : items.Sound P) {e : Entry} (he : e.Lands P)
    (hadd : addEntry? items e = some items') : items'.Sound P := by
  obtain ⟨labels, last, hkey, hlabels, hlast⟩ := he
  simp only [Branch.addEntry?, hkey, List.getLast?_concat, List.dropLast_concat,
    Option.bind_eq_bind, Option.bind_some] at hadd
  refine h.along? (show TableForm.WellWritten .dotted from trivial)
    (fun form inner inner' hinner hput => ?_) hlabels hadd
  split at hput
  · rw [alter?_eq] at hput
    obtain ⟨n, hn, rfl⟩ := Option.map_eq_some_iff.1 hput
    refine hinner.set (fun hnone => ?_) fun k m hm _ => ?_
    · obtain rfl : Node.value e.body = n := by simpa [hnone] using hn
      exact .value hlast
    · simp [hm] at hn
  · cases hput

theorem Sound.addEntries? (h : items.Sound P) {entries : List Entry}
    (hentries : ∀ e ∈ entries, e.Lands P) (hadd : addEntries? items entries = some items') :
    items'.Sound P :=
  of_foldlM (fun _ e he _ hitems => hitems.addEntry? (hentries e he)) h hadd

theorem Sound.openTable? {form : TableForm} (hform : form.WellWritten) {last : Label}
    (hlast : last.NamesTable) {entries : List Entry} (hentries : ∀ e ∈ entries, e.Lands P)
    (h : items.Sound P) (hopen : openTable? form last entries items = some items') :
    items'.Sound P := by
  obtain ⟨existing, hexisting, htable⟩ := Option.bind_eq_some_iff.1 hopen
  obtain ⟨table, hadd, hitems⟩ := Option.bind_eq_some_iff.1 htable
  have hbefore : Sound P existing := by
    rw [existing?] at hexisting
    split at hexisting
    next =>
      obtain rfl := Option.some.inj hexisting
      exact sound_nil
    next inner hat =>
      obtain rfl := Option.some.inj hexisting
      obtain ⟨k, hk, -⟩ := mem_of_at? hat
      cases h.nodes _ hk with
      | table _ _ hnodup hnodes => exact ⟨hnodup, hnodes⟩
    next => cases hexisting
  have hsound := hbefore.addEntries? hentries hadd
  obtain rfl := Option.some.inj hitems
  refine ⟨?_, ?_⟩
  · rw [names_append]
    refine List.nodup_append.2 ⟨h.nodup.sublist (List.filter_sublist.map _), by simp, ?_⟩
    intro name hname
    obtain ⟨p, hp, rfl⟩ := List.mem_map.1 hname
    simpa using (List.mem_filter.1 hp).2
  · simp only [List.forall_mem_append, List.forall_mem_singleton]
    exact ⟨fun p hp => h.nodes p (List.mem_filter.1 hp).1,
      .table hlast hform hsound.nodup hsound.nodes⟩

theorem Sound.openElement? {form : TableForm} (hform : form.WellWritten) {last : Label}
    (hlast : last.NamesTable) {entries : List Entry} (hentries : ∀ e ∈ entries, e.Lands P)
    (h : items.Sound P) (hopen : openElement? form last entries items = some items') :
    items'.Sound P := by
  obtain ⟨element, hadd, halter⟩ := Option.bind_eq_some_iff.1 hopen
  have hsound := sound_nil.addEntries? hentries hadd
  rw [alter?_eq] at halter
  obtain ⟨n, hn, rfl⟩ := Option.map_eq_some_iff.1 halter
  refine h.set (fun hnone => ?_) fun k m hm hk => ?_
  · obtain rfl : Node.tables [(form, element)] = n := by simpa [hnone] using hn
    exact .tables hlast (by simp) (by simpa using hform) (by simpa using hsound.nodup)
      (by simpa using hsound.nodes)
  · rw [hm] at hn
    cases hk with
    | value | table => cases hn
    | @tables _ elements hlabel hne hwritten hnodup hnodes =>
        obtain rfl : Node.tables (elements ++ [(form, element)]) = n := by simpa using hn
        have hall : ∀ e ∈ elements ++ [(form, element)], e.1.WellWritten ∧ Sound P e.2 := by
          simp only [List.forall_mem_append, List.forall_mem_singleton]
          exact ⟨fun e he => ⟨hwritten e he, hnodup e he, hnodes e he⟩, hform, hsound⟩
        exact .tables hlabel (by simp) (fun e he => (hall e he).1) (fun e he => (hall e he).2.nodup)
          fun e he => (hall e he).2.nodes

theorem Sound.addSection? (h : items.Sound P) {position : Nat} {s : Section} (hs : s.Lands P)
    (hadd : addSection? items position s = some items') : items'.Sound P := by
  obtain ⟨labels, last, hkey, hlabels⟩ := hs.header
  simp only [List.forall_mem_append, List.forall_mem_singleton] at hlabels
  have hend : (Label.ofKey [] s.header.key).getLast? = some last := by simp [hkey]
  rw [addSection?_eq hend, hkey, List.dropLast_concat] at hadd
  refine h.along? (show TableForm.WellWritten .implied from trivial)
    (fun form inner inner' hinner hopen => ?_) hlabels.1 hadd
  split at hopen
  · exact hinner.openElement? (hs.stated position) hlabels.2 hs.entries hopen
  · exact hinner.openTable? (hs.stated position) hlabels.2 hs.entries hopen

/-- The tree of a document whose parts land is sound. -/
theorem sound_of_ofDocument? {d : Document} (hroot : ∀ e ∈ d.root, e.Lands P)
    (hsections : ∀ s ∈ d.sections, s.Lands P) {tree : Branch}
    (h : ofDocument? d = some tree) : tree.Sound P := by
  obtain ⟨root, hadd, hfold⟩ := Option.bind_eq_some_iff.1 h
  refine of_foldlM (fun items p hp items' hitems => hitems.addSection? ?_)
    (sound_nil.addEntries? hroot hadd) hfold
  exact hsections _ (List.fst_mem_of_mem_zipIdx hp)

end Branch

/-! ### What a tree is written as -/

theorem entriesIn_eq_flatMap (path : List Label) (items : Branch) :
    entriesIn path items = items.flatMap fun p => p.2.entries (path ++ [p.1]) := by
  induction items with
  | nil => rw [entriesIn, List.flatMap_nil]
  | cons p items ih => rw [entriesIn, ih, List.flatMap_cons]

theorem listedIn_eq_flatMap (path : List Label) (items : Branch) :
    listedIn path items = items.flatMap fun p => p.2.listed (path ++ [p.1]) := by
  induction items with
  | nil => rw [listedIn, List.flatMap_nil]
  | cons p items ih => rw [listedIn, ih, List.flatMap_cons]

theorem listedOf_eq_flatMap (path : List Label) (elements : List (TableForm × Branch)) :
    listedOf path elements =
      elements.flatMap fun e => ⟨path, true, e.1, Branch.entries e.2⟩ :: listedIn path e.2 := by
  induction elements with
  | nil => rw [listedOf, List.flatMap_nil]
  | cons e elements ih => rw [listedOf, ih, List.flatMap_cons]

/-- A path of labels to a value of the kind `P`. -/
def LeadsTo (P : Label → Written → Prop) (path : List Label) (w : Written) : Prop :=
  ∃ way last, path = way ++ [last] ∧ (∀ l ∈ way, l.NamesTable) ∧ P last w

variable {P : Label → Written → Prop} {way : List Label}

theorem Node.Sound.entries {l : Label} {n : Node} (h : n.Sound P l)
    (hway : ∀ k ∈ way, k.NamesTable) {e : Entry} (he : e ∈ n.entries (way ++ [l])) :
    ∃ path w, e = entryOf path w ∧ LeadsTo P path w := by
  induction h generalizing way with
  | @value l w hw =>
      rw [Node.entries, List.mem_singleton] at he
      exact ⟨_, w, he, way, l, rfl, hway, hw⟩
  | @table l form items hlabel _ _ _ ih =>
      have hnext : ∀ k ∈ way ++ [l], k.NamesTable :=
        List.forall_mem_append.2 ⟨hway, by simpa using hlabel⟩
      cases form with
      | dotted =>
          rw [Node.entries, entriesIn_eq_flatMap] at he
          obtain ⟨p, hp, he⟩ := List.mem_flatMap.1 he
          exact ih p hp hnext he
      | implied | added | stated => simp [Node.entries] at he
  | tables => simp [Node.entries] at he

theorem Branch.Sound.entries {items : Branch} (h : items.Sound P) {e : Entry}
    (he : e ∈ items.entries) : ∃ path w, e = entryOf path w ∧ LeadsTo P path w := by
  rw [Branch.entries, entriesIn_eq_flatMap] at he
  obtain ⟨p, hp, he⟩ := List.mem_flatMap.1 he
  exact (h.nodes p hp).entries (by simp) he

/-- A table of a sound tree, with the path to it. -/
structure Listed.Sound (P : Label → Written → Prop) (t : Listed) : Prop where
  ne_nil : t.path ≠ []
  path : ∀ l ∈ t.path, l.NamesTable
  form : t.form.WellWritten
  entries : ∃ items, Branch.Sound P items ∧ t.entries = Branch.entries items

theorem Node.Sound.listed {l : Label} {n : Node} (h : n.Sound P l)
    (hway : ∀ k ∈ way, k.NamesTable) {t : Listed} (ht : t ∈ n.listed (way ++ [l])) :
    t.Sound P := by
  induction h generalizing way t with
  | value => simp [Node.listed] at ht
  | @table l form items hlabel hwritten hnodup hnodes ih =>
      have hnext : ∀ k ∈ way ++ [l], k.NamesTable :=
        List.forall_mem_append.2 ⟨hway, by simpa using hlabel⟩
      have hinner : ∀ t ∈ listedIn (way ++ [l]) items, t.Sound P := by
        intro t ht
        rw [listedIn_eq_flatMap] at ht
        obtain ⟨p, hp, ht⟩ := List.mem_flatMap.1 ht
        exact ih p hp hnext ht
      have hself : Listed.Sound P ⟨way ++ [l], false, form, Branch.entries items⟩ :=
        ⟨by simp, hnext, hwritten, items, ⟨hnodup, hnodes⟩, rfl⟩
      cases form with
      | dotted => exact hinner t (by simpa [Node.listed] using ht)
      | implied | added | stated =>
          rcases List.mem_cons.1 (by simpa [Node.listed] using ht) with rfl | ht
          · exact hself
          · exact hinner t ht
  | @tables l elements hlabel hne hwritten hnodup hnodes ih =>
      have hnext : ∀ k ∈ way ++ [l], k.NamesTable :=
        List.forall_mem_append.2 ⟨hway, by simpa using hlabel⟩
      rw [Node.listed, listedOf_eq_flatMap] at ht
      obtain ⟨e, he, ht⟩ := List.mem_flatMap.1 ht
      rcases List.mem_cons.1 ht with rfl | ht
      · exact ⟨by simp, hnext, hwritten e he, e.2, ⟨hnodup e he, hnodes e he⟩, rfl⟩
      · rw [listedIn_eq_flatMap] at ht
        obtain ⟨p, hp, ht⟩ := List.mem_flatMap.1 ht
        exact ih e he p hp hnext ht

theorem Branch.Sound.listed {items : Branch} (h : items.Sound P) {t : Listed}
    (ht : t ∈ listedIn [] items) : t.Sound P := by
  rw [listedIn_eq_flatMap] at ht
  obtain ⟨p, hp, ht⟩ := List.mem_flatMap.1 ht
  exact (h.nodes p hp).listed (by simp) ht

end DnsFilter.Toml
