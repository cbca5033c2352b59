import StackLang.Failure
import StackLang.Source

namespace StackLang

structure Reader where
  rest : Source
  /-- Whether closing has an effect. -/
  closable : Bool
  closed : Bool
  deriving Repr

abbrev Reader.Act := EStateM Failure Reader

namespace Reader

def ofText (s : String) : Reader := ⟨.ofText s, true, false⟩

def ofBytes (bs : List UInt8) : Reader := ⟨.ofBytes bs, false, false⟩

def peek : Reader.Act (Option Char) := fun r =>
  if r.closed then .error (.crash .closed) r
  else
    match Source.glimpse r.rest with
    | .finish => .ok none r
    | .char c => .ok (some c) r
    | .blind => .error (.crash .undecodable) r

def read : Reader.Act (Option Char) := fun r =>
  if r.closed then .error (.crash .closed) r
  else
    match r.rest with
    | [] => .ok none r
    | c :: cs =>
      match c.value with
      | some x => .ok (some x) { r with rest := cs }
      | none => .error (.crash .undecodable) { r with rest := cs }

def close : Reader.Act Unit := modify fun r => { r with closed := r.closed || r.closable }

end Reader
end StackLang
