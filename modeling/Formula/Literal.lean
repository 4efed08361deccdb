import Formula.Decimal
import Formula.Text

namespace Formula

inductive Radix where
  | binary
  | decimal
  | hexadecimal
deriving DecidableEq, Repr

namespace Radix

def base : Radix → Nat
  | binary => 2
  | decimal => 10
  | hexadecimal => 16

def worth? (c : Char) : Option Nat :=
  if c.isDigit then some (c.toNat - '0'.toNat)
  else if 'a' ≤ c && c ≤ 'f' then some (c.toNat - 'a'.toNat + 10)
  else if 'A' ≤ c && c ≤ 'F' then some (c.toNat - 'A'.toNat + 10)
  else none

def digit? (r : Radix) (c : Char) : Option Nat := (worth? c).filter (· < r.base)

def isDigit (r : Radix) (c : Char) : Bool := (r.digit? c).isSome

def value (r : Radix) (run : List Char) : Nat :=
  (run.filterMap r.digit?).foldl (fun n d => r.base * n + d) 0

/-- Whether each separator stands between two digits, where `afterDigit` says if a digit stands before
the run. -/
def separatedFrom (r : Radix) (afterDigit : Bool) : List Char → Bool
  | [] => true
  | c :: rest =>
    (c != '_' || (afterDigit && rest.head?.any r.isDigit)) && r.separatedFrom (r.isDigit c) rest

def wellSeparated (r : Radix) (run : List Char) : Bool := r.separatedFrom false run

end Radix

namespace Literal

structure Exponent where
  marker : Char
  sign : Option Char
  digits : List Char
deriving DecidableEq, Repr

end Literal

inductive Literal where
  | based (radix : Radix) (marker : Char) (digits : List Char)
  | decimal (whole : List Char) (fraction : Option (List Char)) (exponent : Option Literal.Exponent)
deriving DecidableEq, Repr

namespace Literal

inductive Flaw where
  | missingDigits
  | foreignDigit (radix : Radix)
  | misplacedSeparator
  | tooLarge
deriving DecidableEq, Repr

def Exponent.text (e : Exponent) : List Char := e.marker :: e.sign.toList ++ e.digits

def text : Literal → List Char
  | based _ marker digits => '0' :: marker :: digits
  | decimal whole fraction exponent =>
    whole ++ (match fraction with | some f => '.' :: f | none => []) ++
      (match exponent with | some e => e.text | none => [])

def Exponent.value (e : Exponent) : Int :=
  if e.sign = some '-' then -(Radix.decimal.value e.digits : Int) else Radix.decimal.value e.digits

def toDecimal (whole fraction : List Char) (exponent : Option Exponent) : Decimal :=
  ⟨Radix.decimal.value (whole ++ fraction),
    (exponent.map Exponent.value).getD 0 - (fraction.filter Char.isDigit).length⟩

def value : Literal → Except Flaw Float
  | based radix _ digits =>
    if digits.isEmpty then .error .missingDigits
    else if digits.any fun c => c != '_' && !radix.isDigit c then .error (.foreignDigit radix)
    else if !radix.wellSeparated digits then .error .misplacedSeparator
    else
      let n := radix.value digits
      if n < Nat.pow 2 64 then .ok (Binary64.ofNat n) else .error .tooLarge
  | decimal whole fraction exponent =>
    let places := fraction.getD []
    let powers := (exponent.map Exponent.digits).getD []
    if [whole, places, powers].all Radix.decimal.wellSeparated then
      .ok (toDecimal whole places exponent).toFloat
    else .error .misplacedSeparator

def inRun (c : Char) : Bool := c.isDigit || c == '_'

def radixOfMarker? (c : Char) : Option Radix :=
  if c = 'x' || c = 'X' then some .hexadecimal
  else if c = 'b' || c = 'B' then some .binary
  else none

def beginsAt : List Char → Bool
  | [] => false
  | c :: rest => c.isDigit || (c == '.' && rest.head?.any Char.isDigit)

def splitSign : List Char → Option Char × List Char
  | [] => (none, [])
  | c :: rest => if c = '+' || c = '-' then (some c, rest) else (none, c :: rest)

/-- An exponent is taken only where a digit follows its marker and sign. -/
def scanExponent : List Char → Option Exponent
  | [] => none
  | c :: rest =>
    let (sign, digits) := splitSign rest
    if (c = 'e' || c = 'E') && digits.head?.any Char.isDigit then
      some ⟨c, sign, digits.takeWhile inRun⟩
    else none

def scanDecimal (s : List Char) : Literal :=
  let whole := s.takeWhile inRun
  match s.dropWhile inRun with
  | [] => .decimal whole none none
  | c :: rest =>
    if c = '.' then
      .decimal whole (some (rest.takeWhile inRun)) (scanExponent (rest.dropWhile inRun))
    else .decimal whole none (scanExponent (c :: rest))

def scan (s : List Char) : Literal :=
  match s with
  | c :: marker :: rest =>
    match if c = '0' then radixOfMarker? marker else none with
    | some radix => .based radix marker (rest.takeWhile Text.continuesName)
    | none => scanDecimal s
  | _ => scanDecimal s

end Literal

end Formula
