import StackLang.Number.Double

namespace StackLang.Double

def tenPow (k : Int) : Nat × Nat := (Nat.pow 10 k.toNat, Nat.pow 10 (-k).toNat)

def magnitude (num den : Nat) : Int :=
  if den ≤ num then (Nat.toDigits 10 (num / den)).length
  else 1 - ((Nat.toDigits 10 ((den - 1) / num)).length : Int)

def ofDecimal (negative : Bool) (digits : Nat) (k : Int) : Double :=
  let (up, down) := tenPow k
  round negative (digits * up) down

/-- The neighbour of `num / den` on the grid of multiples of `10 ^ k` that reads back as `x`. -/
def onGrid? (x : Double) (num den : Nat) (k : Int) : Option Nat :=
  let (up, down) := tenPow k
  let n := num * down
  let d := den * up
  let low := n / d
  let lowReads := ofDecimal false low k = x
  let highReads := ofDecimal false (low + 1) k = x
  if lowReads ∧ highReads then some (halfToEven low (n % d) d)
  else if lowReads then some low
  else if highReads then some (low + 1)
  else none

/-- Digits on the coarsest grid that has some, starting from a grid and refining `fuel` times. -/
def refine (x : Double) (num den : Nat) : Nat → Int → Nat × Int
  | 0, k => (num * (tenPow k).2 / (den * (tenPow k).1), k)
  | fuel + 1, k =>
    match onGrid? x num den k with
    | some digits => (digits, k)
    | none => refine x num den fuel (k - 1)

/-- The digits of a positive finite double without zeros at the end, and the place of the decimal
point relative to the first of them. -/
def shortest (mantissa : Nat) (exponent : Int) : List Char × Int :=
  let (num, den) := fraction mantissa exponent
  let (digits, k) := refine (finite false mantissa exponent) num den 17 (magnitude num den - 1)
  let text := Nat.toDigits 10 digits
  ((text.reverse.dropWhile (· == '0')).reverse, k + text.length)

/-- How decimals are laid out: positional notation for points from `least` to `greatest`, exponents
of at least two digits otherwise. -/
structure Layout where
  least : Int
  greatest : Int

def layout : Layout := ⟨-3, 16⟩

def zeros (n : Nat) : List Char := List.replicate n '0'

def positional (digits : List Char) (point : Int) : List Char :=
  if point ≤ 0 then '0' :: '.' :: (zeros (-point).toNat ++ digits)
  else
    let n := point.toNat
    if digits.length ≤ n then digits ++ zeros (n - digits.length) ++ ['.', '0']
    else digits.take n ++ '.' :: digits.drop n

def scientific (digits : List Char) (point : Int) : List Char :=
  let e := point - 1
  let mark := if e < 0 then '-' else '+'
  let size := Nat.toDigits 10 e.natAbs
  let fractional :=
    match digits.tail with
    | [] => []
    | ds => '.' :: ds
  digits.take 1 ++ fractional ++ 'e' :: mark :: (zeros (2 - size.length) ++ size)

def render : Double → String
  | nan => "nan"
  | infinite s => if s then "-inf" else "inf"
  | finite s m e =>
    let body :=
      if m = 0 then ['0', '.', '0']
      else
        let (digits, point) := shortest m e
        if layout.least ≤ point ∧ point ≤ layout.greatest then positional digits point
        else scientific digits point
    String.ofList (if s then '-' :: body else body)

end StackLang.Double
