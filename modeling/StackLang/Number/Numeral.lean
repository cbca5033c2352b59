import StackLang.Number.Shortest
import StackLang.Text.Blank
import StackLang.Text.Digit

namespace StackLang.Numeral

open Text

def plainDigit (c : Char) : Char :=
  match decimal? c with
  | some d => Char.ofNat (0x30 + d)
  | none => c

/-- The text without underscores, if each of them stands between two digits. -/
def joined? (before : Bool) : List Char → Option (List Char)
  | [] => some []
  | '_' :: rest =>
    match rest with
    | d :: _ => if before && d.isDigit then joined? false rest else none
    | [] => none
  | c :: rest => (joined? c.isDigit rest).map (c :: ·)

def plain? (s : String) : Option (List Char) :=
  joined? false ((trim s.toList).map plainDigit)

def signed : List Char → Bool × List Char
  | '-' :: rest => (true, rest)
  | '+' :: rest => (false, rest)
  | cs => (false, cs)

def natural (digits : List Char) : Nat :=
  digits.foldl (fun n d => 10 * n + (d.toNat - 0x30)) 0

def natural? (cs : List Char) : Option Nat :=
  if cs ≠ [] ∧ cs.all Char.isDigit then some (natural cs) else none

def whole? (s : String) : Option Int := do
  let (negative, rest) := signed (← plain? s)
  let n ← natural? rest
  return if negative then -(n : Int) else n

/-- Whole numbers of more digits are neither read from text nor written as text. -/
def digitLimit : Nat := 4300

def digitCount (s : String) : Nat := s.toList.countP fun c => (plainDigit c).isDigit

def int? (s : String) : Option Int := if digitCount s ≤ digitLimit then whole? s else none

def ofInt? (i : Int) : Option String :=
  if (Nat.toDigits 10 i.natAbs).length ≤ digitLimit then some (toString i) else none

/-- The double nearest to `digits * 10 ^ k`. Beyond the range of doubles on either side the power
is not computed. -/
def scaled (negative : Bool) (digits : Nat) (k : Int) : Double :=
  let size : Int := k + (Nat.toDigits 10 digits).length
  if digits = 0 ∨ size < -400 then .zero negative
  else if 400 < size then .infinite negative
  else .ofDecimal negative digits k

/-- The exponent behind a mantissa; none written is zero. -/
def exponent? : List Char → Option Int
  | [] => some 0
  | c :: rest =>
    if c = 'e' ∨ c = 'E' then do
      let (negative, digits) := signed rest
      let n ← natural? digits
      return if negative then -(n : Int) else n
    else none

def decimal? (negative : Bool) (cs : List Char) : Option Double := do
  let whole := cs.takeWhile Char.isDigit
  let rest := cs.dropWhile Char.isDigit
  let (places, rest) :=
    match rest with
    | '.' :: more => (more.takeWhile Char.isDigit, more.dropWhile Char.isDigit)
    | _ => ([], rest)
  if whole = [] ∧ places = [] then none
  else
    let k ← exponent? rest
    return scaled negative (natural (whole ++ places)) (k - places.length)

/-- A number with an optional fraction and exponent, or the name of a value beyond them. -/
def double? (s : String) : Option Double := do
  let (negative, rest) := signed (← plain? s)
  match String.ofList (rest.map Char.toLower) with
  | "inf" | "infinity" => return .infinite negative
  | "nan" => return .nan
  | _ => decimal? negative rest

end StackLang.Numeral
