namespace StackLang

/-- One unit of input: what looking at it shows and what consuming it gives. Either is missing
where the bytes do not decode. -/
structure Cell where
  sight : Option Char
  value : Option Char
  deriving Repr, DecidableEq

namespace Cell

def ofChar (c : Char) : Cell := ⟨some c, some c⟩

end Cell

abbrev Source := List Cell

namespace Utf8

def tail? (b : UInt8) : Option Nat :=
  if 0x80 ≤ b ∧ b < 0xc0 then some (b.toNat - 0x80) else none

def char? (least n : Nat) : Option Char :=
  if h : n.isValidChar then if least ≤ n then some (Char.ofNatAux n h) else none else none

/-- The character that a byte sequence starts with and the number of its bytes, if the sequence
starts with a well-formed one: shortest form, no surrogate. -/
def head? : List UInt8 → Option (Char × Nat)
  | [] => none
  | a :: bs =>
    if a < 0x80 then some (Char.ofNat a.toNat, 1)
    else if 0xc0 ≤ a ∧ a < 0xe0 then do
      let x ← bs[0]? >>= tail?
      let c ← char? 0x80 ((a.toNat - 0xc0) * 0x40 + x)
      pure (c, 2)
    else if 0xe0 ≤ a ∧ a < 0xf0 then do
      let x ← bs[0]? >>= tail?
      let y ← bs[1]? >>= tail?
      let c ← char? 0x800 (((a.toNat - 0xe0) * 0x40 + x) * 0x40 + y)
      pure (c, 3)
    else if 0xf0 ≤ a ∧ a < 0xf8 then do
      let x ← bs[0]? >>= tail?
      let y ← bs[1]? >>= tail?
      let z ← bs[2]? >>= tail?
      let c ← char? 0x10000 ((((a.toNat - 0xf0) * 0x40 + x) * 0x40 + y) * 0x40 + z)
      pure (c, 4)
    else none

end Utf8

namespace Source

def ofText (s : String) : Source := s.toList.map Cell.ofChar

inductive Glimpse where
  | finish
  | char (c : Char)
  | blind
  deriving Repr, DecidableEq

def glimpse : Source → Glimpse
  | [] => .finish
  | c :: _ => match c.sight with
    | some x => .char x
    | none => .blind

/-- Cells of a byte stream. A cell shows its character when the bytes from it on decode up to the
end: its own sequence is well formed and what follows that sequence is the end or shows something. -/
def ofBytes : List UInt8 → Source
  | [] => []
  | b :: bs =>
    let rest := ofBytes bs
    let sight := do
      let (c, k) ← Utf8.head? (b :: bs)
      match glimpse (rest.drop (k - 1)) with
      | .blind => none
      | _ => some c
    ⟨sight, if b < 0x80 then some (Char.ofNat b.toNat) else none⟩ :: rest

end Source
end StackLang
