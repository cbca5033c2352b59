namespace StackLang

structure Table (κ α : Type) where
  entries : List (κ × α)
  deriving Repr

namespace Table

variable {κ α : Type} [BEq κ]

def empty : Table κ α := ⟨[]⟩

instance : EmptyCollection (Table κ α) := ⟨empty⟩

def keys (t : Table κ α) : List κ := t.entries.map Prod.fst

def values (t : Table κ α) : List α := t.entries.map Prod.snd

def get? (t : Table κ α) (k : κ) : Option α := (t.entries.find? (·.1 == k)).map Prod.snd

def contains (t : Table κ α) (k : κ) : Bool := t.entries.any (·.1 == k)

/-- A key that is there keeps its place and gets the new value. -/
def put (t : Table κ α) (k : κ) (a : α) : Table κ α :=
  if t.contains k then ⟨t.entries.map fun e => if e.1 == k then (e.1, a) else e⟩
  else ⟨t.entries ++ [(k, a)]⟩

end Table
end StackLang
