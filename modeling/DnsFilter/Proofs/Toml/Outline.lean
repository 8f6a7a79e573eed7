import DnsFilter.Proofs.Toml.Printing
import DnsFilter.Toml.Outline

/-! What is read of a document does not depend on how it is spelled. -/

namespace DnsFilter.Toml

/-! ### Numbers that can be held -/

section Within

variable {least greatest least' greatest' : Int}

mutual

theorem Value.isWithin_mono (hleast : least' ≤ least) (hgreatest : greatest ≤ greatest') :
    (v : Value) → v.isWithin least greatest → v.isWithin least' greatest'
  | .integer n, h => by
      rw [Value.isWithin, decide_eq_true_eq] at h ⊢
      omega
  | .array items, h => by
      rw [Value.isWithin] at h ⊢
      exact areWithin_mono hleast hgreatest items h
  | .table entries, h => by
      rw [Value.isWithin] at h ⊢
      exact areEntriesWithin_mono hleast hgreatest entries h
  | .float _, h => h
  | .string _, _ | .boolean _, _ | .date, _ => rfl

theorem areWithin_mono (hleast : least' ≤ least) (hgreatest : greatest ≤ greatest') :
    (items : List Value) → areWithin least greatest items → areWithin least' greatest' items
  | [], _ => rfl
  | v :: items, h => by
      rw [areWithin, Bool.and_eq_true] at h ⊢
      exact ⟨Value.isWithin_mono hleast hgreatest v h.1,
        areWithin_mono hleast hgreatest items h.2⟩

theorem areEntriesWithin_mono (hleast : least' ≤ least) (hgreatest : greatest ≤ greatest') :
    (entries : List (List Text × Value)) →
    areEntriesWithin least greatest entries → areEntriesWithin least' greatest' entries
  | [], _ => rfl
  | (_, v) :: entries, h => by
      rw [areEntriesWithin, Bool.and_eq_true] at h ⊢
      exact ⟨Value.isWithin_mono hleast hgreatest v h.1,
        areEntriesWithin_mono hleast hgreatest entries h.2⟩

end

theorem areWithin_take {items : List Value} (h : areWithin least greatest items) (n : Nat) :
    areWithin least greatest (items.take n) := by
  induction items generalizing n with
  | nil => simpa using h
  | cons v items ih =>
      rw [areWithin, Bool.and_eq_true] at h
      cases n with
      | zero => rfl
      | succ n =>
          rw [List.take_succ_cons, areWithin, Bool.and_eq_true]
          exact ⟨h.1, ih h.2 n⟩

end Within

/-- What is looked at of an array is in the array. -/
theorem isWide_visited {shape : Shape} {e : Entry} (h : isWide e.body.value) :
    isWide (shape.visited e) := by
  rw [Shape.visited]
  split
  next name items hnames hvalue =>
    rw [hvalue] at h
    split
    · rw [isWide, Value.isWithin] at h ⊢
      exact areWithin_take h _
    · exact h
  next => exact h

theorem isReadable_of_hasValues {d : Document} (h : d.HasValues (isWide ·)) (shape : Shape) :
    shape.isReadable d := by
  simp only [Shape.isReadable, Bool.and_eq_true, List.all_eq_true]
  exact ⟨fun e he => isWide_visited (h.root e he), h.sections⟩

/-! ### Bare documents -/

theorem Node.read_bare (n : Node) : n.bare.read = n.read := by
  cases n <;> simp [Node.bare, Node.read, Written.bare, bareOf_eq_map, Function.comp_def]

theorem Node.part_bare (n : Node) : n.bare.part = n.part := by
  cases n with
  | table form items =>
      have hread : Node.read ∘ Node.bare = Node.read := funext Node.read_bare
      simp [Node.bare, Node.part, Branch.at?_bareIn, hread]
  | value w => exact congrArg Value.part (Node.read_bare (.value w))
  | tables elements =>
      rw [show (Node.tables elements).bare.part = (Node.tables elements).bare.read.part by
        simp [Node.bare, Node.part], Node.read_bare]
      rfl

theorem Branch.root_bareIn (tree : Branch) : Branch.root (bareIn tree) = tree.root := by
  funext name
  have hpart : Node.part ∘ Node.bare = Node.part := funext Node.part_bare
  rw [Branch.root, Branch.at?_bareIn, Option.map_map, hpart]
  rfl

theorem visited_bare (shape : Shape) (e : Entry) : shape.visited e.bare = shape.visited e := by
  have hnames : e.bare.names = e.names := by
    simp [Entry.names, Entry.bare, Key.names, Key.bare, KeyPart.bare]
  rw [Shape.visited, Shape.visited, hnames]
  rfl

theorem isReadable_bare (shape : Shape) (d : Document) :
    shape.isReadable d.bare = shape.isReadable d := by
  have hroot : (fun e => isWide (shape.visited e)) ∘ Entry.bare =
      fun e => isWide (shape.visited e) := funext fun e => congrArg isWide (visited_bare shape e)
  simp only [Shape.isReadable, Document.bare, List.all_map, hroot]
  congr 1
  refine congrArg (List.all d.sections) (funext fun s => ?_)
  simp only [Function.comp_apply, Section.bare, List.all_map]
  rfl

/-! ### Documents that are printed -/

variable {d : Document} {shape : Shape}

theorem root?_congr {d' : Document} (h : d'.bare = d.bare) : d'.root? shape = d.root? shape := by
  have hroot : ∀ d : Document, d.root? shape = (Branch.sense? d.bare).bind fun sense =>
      if shape.isReadable d.bare then some sense.root else none := by
    intro d
    rw [Document.root?, ← Branch.ofDocument?_bare, isReadable_bare]
    cases Branch.ofDocument? d with
    | none => rfl
    | some tree => simp [Branch.root_bareIn]
  rw [hroot, hroot, h]

/-- A well written document is printed as a text of which the same is read as of the document. -/
theorem read?_render (h : d.WellWritten) : Format.standard.read? shape d.render = d.root? shape := by
  obtain ⟨d', hread, hbare⟩ := ofText?_render h
  show (Document.ofText? d.render).bind (·.root? shape) = _
  rw [hread, Option.bind_some, root?_congr hbare]

/-- What is read of a document with numbers that can be held is what it makes sense as. -/
theorem root?_eq_some_iff (h : d.HasValues (isWide ·)) {r : Root} :
    d.root? shape = some r ↔ ∃ sense, Branch.sense? d.bare = some sense ∧ sense.root = r := by
  rw [Document.root?, ← Branch.ofDocument?_bare]
  cases Branch.ofDocument? d with
  | none => simp
  | some tree => simp [isReadable_of_hasValues h shape, Branch.root_bareIn]

end DnsFilter.Toml
