import DnsFilter.Config.PolicyFile
import DnsFilter.Config.Reader
import DnsFilter.Proofs.Files.Writing
import DnsFilter.Proofs.Toml.Drafts

/-! Saving the policy. The file comes to stand for the configuration it stood for, with the new policy
in it, however it wrote the old one. The editor of documents may be any that does what is relied on. -/

namespace DnsFilter

open Toml (Text Value Part Root Setting ItemKind)

/-! ### The policy in what is read -/

namespace Config

variable {root root' : Root} {look : Lookup} {c : Config} {p : WildcardPolicy}

end Config

namespace PolicyFile

open Config (ofText? ofRoot?)

variable {E : Toml.Editor} {F : Toml.Format} {shape : Toml.Shape} {d : E.Doc} {r : Root}

/-! ### The policy in a document -/

/-- A document in which the policy has a table, and what is read of it; no setting of the policy is a
table in that. -/
structure Opens (F : Toml.Format) (shape : Toml.Shape) (d : E.Doc) (r : Root) : Prop where
  made : E.Made d
  reads : F.read? shape (E.print d) = some r
  table : E.kind? d table = some .table
  values : ∀ key ∈ [modeKey, respectKey],
    E.kindIn? d PolicyFile.table key = none ∨ E.kindIn? d PolicyFile.table key = some .value

/-- An edit that puts a value in the table leaves no table in the place of a setting. -/
theorem Opens.edited (hE : E.Lawful F) (h : Opens F shape d r) {d' : E.Doc} {key : Text} {v : Setting}
    (hedit : E.Edit d (·.set PolicyFile.table key v.value) d')
    (htable : E.kind? d' PolicyFile.table = some .table)
    (hkinds : ∀ other, E.kindIn? d' PolicyFile.table other =
      if other = key then some .value else E.kindIn? d PolicyFile.table other) :
    Opens F shape d' (r.set PolicyFile.table key v.value) := by
  refine ⟨.edited h.made hedit, hE.read_edited h.made hedit h.reads, htable, fun other hother => ?_⟩
  rw [hkinds]
  split
  · exact .inr rfl
  · exact h.values other hother

/-- A value is put in the table, in the place of another or as a new one. -/
theorem Opens.setValue (hE : E.Lawful F) (h : Opens F shape d r) {key : Text}
    (hkey : key ∈ [modeKey, respectKey]) {v : Setting}
    (hv : v.value.isWithin (-0x8000000000000000) 0x7fffffffffffffff) :
    Opens F shape (setValue d key v) (r.set PolicyFile.table key v.value) := by
  have hname : Toml.IsName key := by
    rcases List.mem_pair.1 hkey with rfl | rfl <;> decide
  rcases h.values key hkey with hnew | hold
  · rw [PolicyFile.setValue, hnew]
    exact h.edited hE (.insert hname h.table hnew hv) (hE.kind_insert key v h.table) fun other =>
      hE.kindIn_insert key v other h.table
  · rw [PolicyFile.setValue, hold]
    exact h.edited hE (.assign hname h.table hold hv) (hE.kind_assign key v _ h.table) fun other =>
      hE.kindIn_assign key v _ other h.table

theorem Opens.setPolicy (hE : E.Lawful F) (h : Opens F shape d r) (p : WildcardPolicy) :
    Opens F shape (setPolicy d p)
      ((r.set PolicyFile.table modeKey (.integer p.mode.number)).set PolicyFile.table respectKey
        (.boolean p.respectAllowlist)) := by
  have hmode : Opens F shape (PolicyFile.setValue d modeKey (.integer p.mode.number)) _ :=
    h.setValue hE (by simp) (by cases p.mode <;> decide)
  exact hmode.setValue hE (by simp) rfl

variable {s : Text} {c : Config}

theorem amended_malformed (path : String) (h : E.parse? s = none) (p : WildcardPolicy) :
    amended path s p E = .error (.malformed path) := by
  rw [amended, h]

/-- What is in a file for one who takes a missing file to be empty. -/
def Holds (t : FileTree) (base : List String) (path s : String) : Prop :=
  t.read base path = .ok s ∨ t.read base path = .error .missing ∧ s = ""

variable {t : FileTree} {base : List String} {path : String}

theorem contents_eq {s : String} (h : Holds t base path s) (p : WildcardPolicy) (E : Toml.Editor) :
    contents path (t.read base path) p E = (amended path s.toList p E).map String.ofList := by
  rcases h with h | ⟨h, rfl⟩ <;> rw [contents, h] <;> rfl

theorem save_run (t : FileTree) (base : List String) (path : String) (p : WildcardPolicy)
    (E : Toml.Editor) :
    (save (FileTree.access base) path p E).run t =
      match contents path (t.read base path) p E with
      | .error cause => (.error cause, t)
      | .ok text => match t.write base path text with
        | .ok t' => (.ok (), t')
        | .error cause => (.error (.unwritable path cause.reason), t) := by
  simp only [save, FileTree.access]
  cases hcontents : contents path (t.read base path) p E with
  | error cause => simp [hcontents]; rfl
  | ok text =>
      cases hwrite : t.write base path text with
      | error cause => simp [hcontents, hwrite]; rfl
      | ok t' => simp [hcontents, hwrite]; rfl

theorem save_malformed {s : String} (hread : Holds t base path s) (hs : E.parse? s.toList = none)
    (p : WildcardPolicy) :
    (save (FileTree.access base) path p E).run t = (.error (.malformed path), t) := by
  rw [save_run, contents_eq hread, amended_malformed path hs]
  rfl

end PolicyFile

end DnsFilter
