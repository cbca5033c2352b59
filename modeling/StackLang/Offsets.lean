import StackLang.Text.Quoted

namespace StackLang

/-- The variables of each open block in the order of their declaration, innermost block first. -/
structure Offsets where
  blocks : List (List String)
  deriving Repr, DecidableEq

namespace Offsets

def empty : Offsets := ⟨[]⟩

def depth (o : Offsets) : Nat := o.blocks.length

def total (o : Offsets) : Nat := o.blocks.flatten.length

def enter (o : Offsets) : Offsets := ⟨[] :: o.blocks⟩

def leave (o : Offsets) : Offsets := ⟨o.blocks.tail⟩

/-- Declares a variable in the innermost block, if there is one. -/
def declare (o : Offsets) (name : String) : Offsets :=
  match o.blocks with
  | [] => o
  | block :: outer => ⟨(block ++ [name]) :: outer⟩

def find : List (List String) → String → Option Nat
  | [], _ => none
  | block :: outer, name =>
    match block.idxOf? name with
    | some i => some (outer.flatten.length + i)
    | none => find outer name

/-- The offset of the innermost variable of a name; of several in one block, the first. -/
def offset? (o : Offsets) (name : String) : Option Nat := find o.blocks name

def render (o : Offsets) : String :=
  let block (names : List String) := "[" ++ ", ".intercalate (names.map Text.quoted) ++ "]"
  "[" ++ ", ".intercalate (o.blocks.reverse.map block) ++ "]"

end Offsets
end StackLang
