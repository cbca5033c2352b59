import StackLang.Failure
import StackLang.Table
import StackLang.Text.Quoted

namespace StackLang

/-- The scopes, innermost first. -/
structure Scopes (α : Type) where
  levels : List (Table String α)
  deriving Repr

namespace Scopes

variable {α : Type}

def empty : Scopes α := ⟨[]⟩

def depth (s : Scopes α) : Nat := s.levels.length

def enter (s : Scopes α) : Scopes α := ⟨∅ :: s.levels⟩

def leave (s : Scopes α) : Scopes α := ⟨s.levels.tail⟩

/-- Puts a name into the innermost scope, if there is one. -/
def put (s : Scopes α) (name : String) (a : α) : Scopes α :=
  match s.levels with
  | [] => s
  | level :: outer => ⟨level.put name a :: outer⟩

def contains (s : Scopes α) (name : String) : Bool := s.levels.any (·.contains name)

/-- Whether a name is in the innermost scope. -/
def containsHere (s : Scopes α) (name : String) : Bool :=
  match s.levels with
  | [] => false
  | level :: _ => level.contains name

def get? (s : Scopes α) (name : String) : Option α := s.levels.findSome? (·.get? name)

def render (info : α → Except Crash String) (s : Scopes α) : Except Crash String := do
  let entry (e : String × α) : Except Crash String := do
    return Text.quoted e.1 ++ ": " ++ (← info e.2)
  let level (t : Table String α) : Except Crash String := do
    return "\x7b" ++ ", ".intercalate (← t.entries.mapM entry) ++ "\x7d"
  return "[" ++ ", ".intercalate (← s.levels.reverse.mapM level) ++ "]"

end Scopes
end StackLang
