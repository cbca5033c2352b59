import StackLang.Failure
import StackLang.Number.Numeral
import StackLang.Text.Quoted

namespace StackLang

inductive Value where
  | absent
  | bool (b : Bool)
  | int (i : Int)
  | double (d : Double)
  | text (s : String)
  deriving Repr, DecidableEq

/-- A value taken as a number. -/
inductive Number where
  | whole (i : Int)
  | double (d : Double)
  deriving Repr, DecidableEq

namespace Number

def exact : Number → Double
  | whole i => .exactly i
  | double d => d

def toDouble : Number → Except Crash Double
  | whole i =>
    match Double.ofInt? i with
    | some d => .ok d
    | none => .error .tooLarge
  | double d => .ok d

end Number

namespace Value

/-- The text that stands for the absence of an object in a program. -/
def null : Value := text "null"

def number? : Value → Option Number
  | bool b => some (.whole (if b then 1 else 0))
  | int i => some (.whole i)
  | double d => some (.double d)
  | absent | text _ => none

def truthy : Value → Bool
  | absent => false
  | bool b => b
  | int i => i != 0
  | double d => !d.isZero
  | text s => s != ""

/-- Equality of values: numbers by size, whatever their kind. -/
def same (a b : Value) : Bool :=
  match a.number?, b.number? with
  | some x, some y => x.exact.compare y.exact == some .eq
  | none, none => a == b
  | _, _ => false

def ordered (a b : Value) : Except Crash (Option Ordering) :=
  match a.number?, b.number? with
  | some x, some y => .ok (x.exact.compare y.exact)
  | none, none =>
    match a, b with
    | text s, text t => .ok (some (if s < t then .lt else if s = t then .eq else .gt))
    | _, _ => .error .wrongKind
  | _, _ => .error .wrongKind

def less (a b : Value) : Except Crash Bool := do
  return (← ordered a b) == some .lt

def lessEq (a b : Value) : Except Crash Bool := do
  return (← ordered a b).any (· != .gt)

def arithmetic (f : Int → Int → Int) (g : Double → Double → Double) (a b : Value) :
    Except Crash Value :=
  match a.number?, b.number? with
  | some (.whole i), some (.whole j) => .ok (int (f i j))
  | some x, some y => do
    return double (g (← x.toDouble) (← y.toDouble))
  | _, _ => .error .wrongKind

def add : Value → Value → Except Crash Value
  | text s, text t => .ok (text (s ++ t))
  | a, b => arithmetic (· + ·) Double.add a b

def sub (a b : Value) : Except Crash Value := arithmetic (· - ·) Double.sub a b

def sizeLimit : Int := Nat.pow 2 63

def repeated (s : String) (n : Int) : Except Crash Value :=
  if sizeLimit ≤ n ∨ n < -sizeLimit ∨ sizeLimit ≤ s.length * n then .error .tooLarge
  else .ok (text (String.join (List.replicate n.toNat s)))

/-- Product of numbers; a text times a whole number is repeated. -/
def mul : Value → Value → Except Crash Value
  | text s, b =>
    match b.number? with
    | some (.whole n) => repeated s n
    | _ => .error .wrongKind
  | a, text t =>
    match a.number? with
    | some (.whole n) => repeated t n
    | _ => .error .wrongKind
  | a, b => arithmetic (· * ·) Double.mul a b

def quotient (a b : Int) : Except Crash Double :=
  match Double.ofQuotient? a b with
  | some d => .ok d
  | none => .error .tooLarge

def wholePart : Double → Except Crash Value
  | .finite s m e => .ok (int (Double.truncate s m e))
  | .infinite _ => .error .tooLarge
  | .nan => .error .badNumeral

/-- The quotient for a divisor that is not zero. Two whole numbers give the whole part of their
rounded quotient. -/
def div : Value → Value → Except Crash Value
  | int a, int b => do wholePart (← quotient a b)
  | a, b =>
    match a.number?, b.number? with
    | some (.whole i), some (.whole j) => do
      return double (← quotient i j)
    | some x, some y => do
      return double (Double.div (← x.toDouble) (← y.toDouble))
    | _, _ => .error .wrongKind

def position : Value → Except Crash Int
  | int i => .ok i
  | bool b => .ok (if b then 1 else 0)
  | _ => .error .wrongKind

/-- A value as the key of an object: a number that is whole. -/
def key? (v : Value) : Option Int :=
  match v.number? with
  | some (.whole i) => some i
  | some (.double d) => d.toInt?
  | none => none

def render : Value → Except Crash String
  | absent => .ok "None"
  | bool b => .ok (if b then "True" else "False")
  | int i =>
    match Numeral.ofInt? i with
    | some s => .ok s
    | none => .error .badNumeral
  | double d => .ok d.render
  | text s => .ok s

/-- The text of a value inside a listing, where texts are quoted. -/
def renderQuoted : Value → Except Crash String
  | text s => .ok (Text.quoted s)
  | v => v.render

end Value

/-- The place in a sequence of length `n` that a position means; negative ones count from the end. -/
def place? (n : Nat) (i : Int) : Option Nat :=
  if 0 ≤ i then if i < n then some i.toNat else none
  else if 0 ≤ n + i then some (n + i).toNat
  else none

end StackLang
