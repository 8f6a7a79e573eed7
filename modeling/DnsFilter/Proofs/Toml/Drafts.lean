import DnsFilter.Proofs.Toml.Editing
import DnsFilter.Proofs.Toml.Writing

/-! Documents that are edited. As long as a draft comes of what was read by edits, it can be printed, and
an edit changes of what is read no more than it is meant to. -/

namespace DnsFilter.Toml

/-! ### What is read of a tree -/

namespace Branch

variable {sense sense' : Branch} {name key : Text}

end Branch

/-! ### Drafts that can be printed -/

namespace Draft

variable {d : Draft} {shape : Shape} {r : Root} {table key : Text} {v : Setting}

/-- A draft whose tree is sound, with narrow values. -/
structure Sound (d : Draft) : Prop where
  tree : d.tree.Sound (DocumentValue (isNarrow ·))
  trailing : ∃ after, GapText false after d.trailing

theorem isWide_of_isNarrow {v : Value} (h : isNarrow v) : isWide v :=
  Value.isWithin_mono (by decide) (by decide) v h

theorem hasValues_iff {d : Document} : d.HasValues (isNarrow ·) ↔ isEditable d := by
  simp only [isEditable, Bool.and_eq_true, List.all_eq_true]
  exact ⟨fun h => ⟨h.root, h.sections⟩, fun h => ⟨h.1, h.2⟩⟩

theorem Sound.read? (h : d.Sound) : Format.standard.read? shape d.document.render = some r ↔
    ∃ sense, Branch.sense? d.document.bare = some sense ∧ sense.root = r := by
  obtain ⟨hwritten, hvalues⟩ := h.tree.toDocument h.trailing
  rw [show d.document = d.tree.toDocument d.trailing from rfl, read?_render hwritten]
  exact root?_eq_some_iff ⟨fun e he => isWide_of_isNarrow (hvalues.root e he),
    fun s hs e he => isWide_of_isNarrow (hvalues.sections s hs e he)⟩

/-- A draft is made of the document of a text, if this can be edited. -/
theorem of_ofText? {s : Text} (h : ofText? s = some d) : ∃ doc, Document.ofText? s = some doc ∧
    Branch.ofDocument? doc = some d.tree ∧ isEditable doc ∧ d.trailing = doc.trailing := by
  obtain ⟨doc, hdoc, h⟩ := Option.bind_eq_some_iff.1 h
  obtain ⟨tree, htree, h⟩ := Option.bind_eq_some_iff.1 h
  split at h
  next hedit =>
    obtain rfl := Option.some.inj h
    exact ⟨doc, hdoc, htree, hedit, rfl⟩
  next => cases h

theorem sound_of_ofText? {s : Text} (h : ofText? s = some d) : d.Sound := by
  obtain ⟨doc, hdoc, htree, hedit, htrailing⟩ := of_ofText? h
  have hwritten := wellWritten_of_ofText? hdoc
  exact ⟨hwritten.sound (hasValues_iff.2 hedit) htree, htrailing ▸ hwritten.trailing⟩

theorem kindIn?_eq {inner : Branch} (h : d.tree.table? table = some inner) (key : Text) :
    d.kindIn? table key = (inner.at? key).map Node.kind := by
  rw [kindIn?, h]
  rfl

/-- Where a key stands for nothing, or for a value, it takes a value. -/
theorem takesValue {inner : Branch} (h : d.tree.table? table = some inner)
    (hkey : d.kindIn? table key = none ∨ d.kindIn? table key = some .value) :
    inner.TakesValue key := by
  intro n hn
  rw [kindIn?_eq h, hn] at hkey
  cases n with
  | value w => exact ⟨w, rfl⟩
  | table | tables => simp [Node.kind] at hkey

theorem Sound.insertTable (h : d.Sound) {name : Text} (hname : IsName name) :
    (d.insertTable name).Sound := ⟨h.tree.addTable hname, h.trailing⟩

theorem Sound.set (h : d.Sound) (hname : IsName key)
    (hkey : d.kindIn? table key = none ∨ d.kindIn? table key = some .value)
    (hv : isNarrow v.value) {tail : Text} (htail : IsTail tail) : (d.set table key v tail).Sound := by
  have hwritten := v.wellWritten htail
  refine ⟨h.tree.setIn ⟨⟨Label.wellWritten_plain hname.1 hname.2, hwritten, hv⟩,
    fun l w' hw' => ⟨hw'.1, hwritten, hv⟩⟩ fun inner hinner => takesValue hinner hkey, h.trailing⟩

/-- What is written behind a value in a sound draft may be written behind another. -/
theorem Sound.tail (h : d.Sound) (table key : Text) : IsTail ((d.tail? table key).getD []) := by
  rw [tail?]
  cases hinner : d.tree.table? table with
  | none => exact isTail_nil
  | some inner =>
      obtain ⟨form, hat⟩ := Branch.table?_eq_some.1 hinner
      rw [Option.bind_eq_bind, Option.bind_some]
      split
      next w hw =>
        obtain ⟨l, hmem, -⟩ := Branch.mem_of_at? hw
        cases (h.tree.inner hat).nodes _ hmem with
        | value hvalue => exact hvalue.2.1.tail
      next => exact isTail_nil

end Draft

/-! ### The editor -/

/-- The editor for texts that are printed as they are written. -/
def Editor.exact : Editor :=
  { Editor.standard with
    parse? := fun s => (Draft.ofText? s).filter fun d => d.document.render = s }

namespace Editor

theorem of_parse?_exact {s : Text} {d : Draft} (h : exact.parse? s = some d) :
    Draft.ofText? s = some d ∧ d.document.render = s := by
  obtain ⟨hread, hprint⟩ := Option.filter_eq_some_iff.1 h
  exact ⟨hread, of_decide_eq_true hprint⟩

theorem sound_edit {d d' : exact.Doc} (h : Draft.Sound d) {change : Root → Root}
    (hedit : exact.Edit d change d') : Draft.Sound d' := by
  cases hedit with
  | insertTable hname => exact h.insertTable hname
  | assign hname _ hkey hv => exact h.set hname (.inr hkey) hv (h.tail _ _)
  | insert hname _ hkey hv => exact h.set hname (.inl hkey) hv isTail_nil

theorem Made.sound {d : exact.Doc} (h : exact.Made d) : Draft.Sound d := by
  induction h with
  | parsed h => exact Draft.sound_of_ofText? (of_parse?_exact h).1
  | edited _ hedit ih => exact sound_edit ih hedit

end Editor

end DnsFilter.Toml
