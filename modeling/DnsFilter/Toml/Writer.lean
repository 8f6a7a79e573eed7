import DnsFilter.Text.Decimal
import DnsFilter.Toml.Document
import DnsFilter.Toml.Library
import DnsFilter.Toml.Quoted

/-! Writing settings: the document in which each group has a header of its own. -/

namespace DnsFilter.Toml

/-! ### Values -/

def naturalText (n : Nat) : Text := Text.Decimal.digits n

def integerText (n : Int) : Text :=
  if n < 0 then '-' :: naturalText n.natAbs else naturalText n.toNat

def booleanText (b : Bool) : Text := if b then "true".toList else "false".toList

/-- Strings in brackets: up to one on a line with these, more of them on lines of their own. -/
def listText : List Text → Text
  | [] => ['[', ']']
  | [s] => '[' :: Quoted.write s ++ [']']
  | items =>
      '[' :: '\n' :: items.flatMap (fun s => "    ".toList ++ Quoted.write s ++ [',', '\n']) ++ [']']

namespace Setting

def render : Setting → Text
  | .text s => Quoted.write s
  | .integer n => integerText n
  | .boolean b => booleanText b
  | .texts items => listText items

/-- A setting as it is written after an equals sign, with `tail` behind it. -/
def written (tail : Text) (v : Setting) : Written := ⟨[' '], v.render, v.value, tail⟩

/-- The entry of a setting and its name. -/
def entry (s : Text × Setting) : Entry := ⟨[], [⟨s.1, [], s.1, [' ']⟩], s.2.written []⟩

end Setting

/-! ### Groups -/

namespace Groups

/-- A group under its header, which `lead` goes before. -/
def toSection (lead : Text) (g : Text × List (Text × Setting)) : Section :=
  ⟨⟨lead, false, [⟨g.1, [], g.1, []⟩], []⟩, g.2.map Setting.entry⟩

/-- The document of groups, with an empty line between them. -/
def document : Groups → Document
  | [] => ⟨[], [], []⟩
  | g :: rest => ⟨[], toSection [] g :: rest.map (toSection ['\n']), []⟩

end Groups

end DnsFilter.Toml
