import StackLang.Table
import StackLang.Value

namespace StackLang

inductive Op where
  | push (v : Value)
  | pop
  | load (offset : Value)
  | store (offset : Value)
  | add | sub | mul | div
  | less | lessEq | equal | notEqual
  | and | or | not
  | jump (target : Value)
  | jumpFalse (target : Value)
  | call (function : Value)
  | ret
  | write | read | length | charAt | toInt | toDouble | toText
  | allocStruct
  | setField (field : Value)
  | getField (field : Value)
  | allocArray | setItem | getItem
  | dup | nop
  | unknown (name : String) (operand : Value)
  deriving Repr, DecidableEq

namespace Op

def name : Op → String
  | push _ => "PUSH" | pop => "POP" | load _ => "LOAD" | store _ => "STORE"
  | add => "ADD" | sub => "SUB" | mul => "MUL" | div => "DIV"
  | less => "CMPLT" | lessEq => "CMPLE" | equal => "CMPEQ" | notEqual => "CMPNE"
  | and => "AND" | or => "OR" | not => "NOT"
  | jump _ => "JMP" | jumpFalse _ => "JMPF" | call _ => "CALL" | ret => "RET"
  | write => "WRITE" | read => "READ" | length => "LEN" | charAt => "GETC"
  | toInt => "TOINT" | toDouble => "TODBL" | toText => "TOSTR"
  | allocStruct => "ALLOCS" | setField _ => "SETF" | getField _ => "GETF"
  | allocArray => "ALLOCA" | setItem => "SETI" | getItem => "GETI"
  | dup => "DUP" | nop => "NOP"
  | unknown name _ => name

def operand : Op → Value
  | push v | load v | store v | jump v | jumpFalse v | call v | setField v | getField v
  | unknown _ v => v
  | _ => .absent

/-- The operation of a name. An operand is dropped where the operation takes none. -/
def ofName (name : String) (v : Value) : Op :=
  let known := [push v, pop, load v, store v, add, sub, mul, div, less, lessEq, equal, notEqual,
    and, or, not, jump v, jumpFalse v, call v, ret, write, read, length, charAt, toInt, toDouble,
    toText, allocStruct, setField v, getField v, allocArray, setItem, getItem, dup, nop]
  (known.find? (·.name == name)).getD (unknown name v)

/-- An operand that is absent is not listed. -/
def operandText (op : Op) : Except Crash String :=
  if op.operand = .absent then .ok "" else op.operand.render

/-- The text by which an operation is listed. -/
def label : Op → String
  | unknown name _ => name
  | op => "OpCode." ++ op.name

end Op

/-- An operation with a remark. -/
structure Instr where
  op : Op
  comment : String
  deriving Repr, DecidableEq

namespace Instr

def plain (op : Op) : Instr := ⟨op, ""⟩

def render (i : Instr) : Except Crash String :=
  let comment := if i.comment = "" then "" else "  // " ++ i.comment
  i.op.operandText.map fun operand => i.op.label ++ "(" ++ operand ++ ")" ++ comment

end Instr

/-- The code of a function. -/
structure Template where
  name : String
  arity : Int
  code : Array Instr
  deriving Repr, DecidableEq

abbrev Image := Table String Template

namespace Image

def empty : Image := ⟨[]⟩

def install (image : Image) (t : Template) : Image := image.put t.name t

def listing (name : String) (t : Template) : Except Crash String := do
  let lines ← t.code.toList.zipIdx.mapM fun (i, n) => do return s!"  {n}: {← i.render}\n"
  return "\nFrame " ++ name ++ "\n" ++ String.join lines

def render (image : Image) : Except Crash String := do
  return String.join (← image.entries.mapM fun (name, t) => listing name t)

end Image
end StackLang
