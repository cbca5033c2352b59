namespace StackLang

/-- The finite number of sign `negative` and magnitude `mantissa * 2 ^ exponent`. Doubles have a
mantissa below `2 ^ 53` and an exponent from `-1074` to `971`, and a mantissa of at least `2 ^ 52`
where the exponent is not the least one. -/
inductive Double where
  | nan
  | infinite (negative : Bool)
  | finite (negative : Bool) (mantissa : Nat) (exponent : Int)
  deriving Repr, DecidableEq

namespace Double

def leastExponent : Int := -1074

def greatestExponent : Int := 971

def zero (negative : Bool) : Double := finite negative 0 leastExponent

def twoPow (e : Int) : Nat × Nat := (Nat.pow 2 e.toNat, Nat.pow 2 (-e).toNat)

/-- Quotient, remainder and divisor of `num / den` in units of `2 ^ e`. -/
def inUnits (num den : Nat) (e : Int) : Nat × Nat × Nat :=
  let (up, down) := twoPow e
  let n := num * down
  let d := den * up
  (n / d, n % d, d)

/-- The exponent at which `num / den` has a quotient of 53 bits. -/
def fullExponent (num den : Nat) : Int :=
  let e := (num.log2 : Int) - den.log2 - 52
  if (inUnits num den e).1 < Nat.pow 2 52 then e - 1 else e

def halfToEven (quotient remainder divisor : Nat) : Nat :=
  if 2 * remainder < divisor ∨ (2 * remainder = divisor ∧ quotient % 2 = 0) then quotient
  else quotient + 1

def round (negative : Bool) (num den : Nat) : Double :=
  if num = 0 then zero negative
  else
    let e := max (fullExponent num den) leastExponent
    let (q, r, d) := inUnits num den e
    let q := halfToEven q r d
    let (m, e) := if q = Nat.pow 2 53 then (Nat.pow 2 52, e + 1) else (q, e)
    if greatestExponent < e then infinite negative else finite negative m e

def fraction (mantissa : Nat) (exponent : Int) : Nat × Nat :=
  let (up, down) := twoPow exponent
  (mantissa * up, down)

def neg : Double → Double
  | nan => nan
  | infinite s => infinite !s
  | finite s m e => finite (!s) m e

def isZero : Double → Bool
  | finite _ m _ => m == 0
  | _ => false

/-- A signed magnitude in units of `2 ^ unit`, for a unit below its exponent. -/
def scaled (negative : Bool) (mantissa : Nat) (exponent unit : Int) : Int :=
  let n : Int := (mantissa * Nat.pow 2 (exponent - unit).toNat : Nat)
  if negative then -n else n

def add : Double → Double → Double
  | nan, _ => nan
  | _, nan => nan
  | infinite s, infinite t => if s = t then infinite s else nan
  | infinite s, finite .. => infinite s
  | finite .., infinite t => infinite t
  | finite s m e, finite t n f =>
    let unit := min e f
    let sum := scaled s m e unit + scaled t n f unit
    if sum = 0 then zero (s && t)
    else
      let (num, den) := fraction sum.natAbs unit
      round (sum < 0) num den

def sub (x y : Double) : Double := add x y.neg

def mul : Double → Double → Double
  | nan, _ => nan
  | _, nan => nan
  | infinite s, infinite t => infinite (s != t)
  | infinite s, finite t n _ => if n = 0 then nan else infinite (s != t)
  | finite s m _, infinite t => if m = 0 then nan else infinite (s != t)
  | finite s m e, finite t n f =>
    let (num, den) := fraction (m * n) (e + f)
    round (s != t) num den

def div : Double → Double → Double
  | nan, _ => nan
  | _, nan => nan
  | infinite _, infinite _ => nan
  | infinite s, finite t _ _ => infinite (s != t)
  | finite s _ _, infinite t => zero (s != t)
  | finite s m e, finite t n f =>
    if n = 0 then if m = 0 then nan else infinite (s != t)
    else
      let (up, down) := twoPow (e - f)
      round (s != t) (m * up) (n * down)

/-- The order of two numbers; a NaN has none. The numbers need not be doubles, so that whole
numbers of any size compare exactly. -/
def compare : Double → Double → Option Ordering
  | nan, _ => none
  | _, nan => none
  | infinite s, infinite t => some (if s = t then .eq else if s then .lt else .gt)
  | infinite s, finite .. => some (if s then .lt else .gt)
  | finite .., infinite t => some (if t then .gt else .lt)
  | finite s m e, finite t n f =>
    let unit := min e f
    some (Ord.compare (scaled s m e unit) (scaled t n f unit))

/-- A whole number as it is, without rounding. -/
def exactly (i : Int) : Double := finite (i < 0) i.natAbs 0

/-- The double nearest to a whole number, unless that is too large. -/
def ofInt? (i : Int) : Option Double :=
  match round (i < 0) i.natAbs 1 with
  | infinite _ => none
  | x => some x

/-- The double nearest to the quotient of two whole numbers, unless that is too large. -/
def ofQuotient? (a b : Int) : Option Double :=
  match round (decide (a < 0) != decide (b < 0)) a.natAbs b.natAbs with
  | infinite _ => none
  | x => some x

def truncate (negative : Bool) (mantissa : Nat) (exponent : Int) : Int :=
  let (num, den) := fraction mantissa exponent
  let n : Int := (num / den : Nat)
  if negative then -n else n

def toInt? : Double → Option Int
  | finite s m e =>
    let (num, den) := fraction m e
    if num % den = 0 then some (truncate s m e) else none
  | _ => none

end Double
end StackLang
