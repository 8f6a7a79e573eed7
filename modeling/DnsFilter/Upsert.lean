/-! Lists as finite maps. Everything in such a list has a key, and what is put in goes to the place of what
has its key already. -/

namespace DnsFilter

/-- Puts what `f` makes of the element with a key in its place; where there is none, `f` makes one for the
end. -/
def upsert {α κ : Type} [DecidableEq κ] (key : α → κ) (k : κ) (f : Option α → α) : List α → List α
  | [] => [f none]
  | a :: rest => if key a = k then f (some a) :: rest else a :: upsert key k f rest

end DnsFilter
