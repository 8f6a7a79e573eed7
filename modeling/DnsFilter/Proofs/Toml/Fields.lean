import DnsFilter.Proofs.Toml.Trees

/-! Edits of a tree. A name stands for what was put there, other names keep what they stood for, and a tree
that could be written still can. -/

namespace DnsFilter.Toml.Branch

variable {P : Label → Written → Prop} {items b : Branch} {l : Label} {n : Node} {name key : Text}
  {w : Written}

/-! ### Names -/

theorem name_plain (name : Text) (n : Node) (old : Option (Label × Node))
    (_ : ∀ p ∈ old, p.1.name = name) : (Label.plain name, n).1.name = name := rfl

@[simp] theorem names_setIn (name key : Text) (w : Written) (b : Branch) :
    names (b.setIn name key w) = names b := by
  rw [names, setIn, List.map_map, names]
  refine List.map_congr_left fun p _ => ?_
  rw [Function.comp_apply]
  split <;> rfl

theorem table?_eq_some {inner : Branch} :
    b.table? name = some inner ↔ ∃ form, b.at? name = some (.table form inner) := by
  rw [table?]
  match b.at? name with
  | none | some (.value _) | some (.tables _) => simp
  | some (.table form items) => simp

/-- A name that may be given a value: one that stands for nothing yet, or for a value. -/
def TakesValue (items : Branch) (key : Text) : Prop :=
  ∀ n, items.at? key = some n → ∃ w, n = .value w

/-- A value that may stand behind a new label, and behind that of a value it replaces. -/
structure MayReplace (P : Label → Written → Prop) (key : Text) (w : Written) : Prop where
  new : P (.plain key) w
  old : ∀ l w', P l w' → P l w

theorem Sound.setField (h : items.Sound P) (hP : MayReplace P key w) (hkey : items.TakesValue key) :
    (Branch.set (.plain key) (.value w) items).Sound P := by
  refine h.set (fun _ => .value hP.new) fun k m hm hk => ?_
  obtain ⟨w', rfl⟩ := hkey m hm
  cases hk with
  | value hw => exact .value (hP.old k w' hw)

/-- The table that a name stands for is sound in itself. -/
theorem Sound.inner (h : b.Sound P) {form : TableForm} {inner : Branch}
    (hat : b.at? name = some (.table form inner)) : inner.Sound P := by
  obtain ⟨l, hmem, -⟩ := mem_of_at? hat
  cases h.nodes _ hmem with
  | table _ _ hnodup hnodes => exact ⟨hnodup, hnodes⟩

theorem Sound.setIn (h : b.Sound P) (hP : MayReplace P key w)
    (hkey : ∀ inner, b.table? name = some inner → inner.TakesValue key) :
    (b.setIn name key w).Sound P := by
  refine ⟨by rw [names_setIn]; exact h.nodup, fun p hp => ?_⟩
  obtain ⟨q, hq, rfl⟩ := List.mem_map.1 hp
  split
  next hname =>
    obtain ⟨l, n⟩ := q
    have hnode := h.nodes _ hq
    cases n with
    | value | tables => exact hnode
    | table form inner =>
        have hat := at?_of_mem h.nodup hq
        rw [hname] at hat
        have hset := (h.inner hat).setField hP (hkey inner (table?_eq_some.2 ⟨form, hat⟩))
        cases hnode with
        | table hlabel hwritten _ _ => exact .table hlabel hwritten hset.nodup hset.nodes
  next => exact h.nodes q hq

theorem Sound.addTable (h : b.Sound P) (hname : IsName name) : (b.addTable name).Sound P := by
  refine ⟨?_, fun p hp => ?_⟩
  · exact nodup_map_upsert (name_plain name _) h.nodup
  · rcases of_mem_upsert hp with hp | rfl
    · exact h.nodes p hp
    · exact .table (Label.wellWritten_plain hname.1 hname.2) trivial List.nodup_nil (by simp)

/-! ### Parts of a tree -/

end DnsFilter.Toml.Branch
