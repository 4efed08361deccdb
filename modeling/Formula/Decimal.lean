import Formula.Binary64

namespace Formula

structure Decimal where
  digits : Nat
  exponent : Int
deriving DecidableEq, Repr

namespace Decimal

/-- Bits of the double nearest to the number. From `10 ^ 309` on every number is nearest to infinity,
and below `2 ^ -1076` every one is nearest to zero, so powers of ten are formed in between only. -/
def nearestBits (d : Decimal) : Nat :=
  if d.digits = 0 then 0
  else
    match d.exponent with
    | .ofNat e =>
      if 309 ≤ e then Binary64.infinityBits else Binary64.nearestBits (d.digits * Nat.pow 10 e) 1
    | .negSucc e =>
      if d.digits.log2 + 1077 ≤ 3 * (e + 1) then 0
      else Binary64.nearestBits d.digits (Nat.pow 10 (e + 1))

def toFloat (d : Decimal) : Float := Float.ofBits (UInt64.ofNat d.nearestBits)

def digitCount (n : Nat) : Nat := (Nat.toDigits 10 n).length

def exact (significand : Nat) (exponent : Int) : Decimal :=
  if exponent < 0 then ⟨significand * Nat.pow 5 (-exponent).toNat, exponent⟩
  else ⟨significand * Nat.pow 2 exponent.toNat, 0⟩

def neighbours (d : Decimal) (dropped : Nat) : Decimal × Decimal :=
  let lower := d.digits / Nat.pow 10 dropped
  (⟨lower, d.exponent + dropped⟩, ⟨lower + 1, d.exponent + dropped⟩)

def upperIsNear (d : Decimal) (dropped : Nat) : Bool :=
  Nat.pow 10 dropped ≤ 2 * (d.digits % Nat.pow 10 dropped)

/-- The neighbour to write, if one of the two reads back. At a tie it is the upper one. -/
def cut? (d : Decimal) (bits : Nat) (dropped : Nat) : Option Decimal :=
  let (lower, upper) := d.neighbours dropped
  if lower.nearestBits = bits && !(upper.nearestBits = bits && d.upperIsNear dropped) then some lower
  else if upper.nearestBits = bits then some upper
  else none

def shortestFrom (d : Decimal) (bits : Nat) : Nat → Decimal
  | 0 => d
  | dropped + 1 => (d.cut? bits dropped).getD (d.shortestFrom bits dropped)

def shortest (significand : Nat) (exponent : Int) : Decimal :=
  let d := exact significand exponent
  d.shortestFrom d.nearestBits (digitCount d.digits)

end Decimal

structure Layout where
  positional : Int → Bool
  wholeEnd : List Char

namespace Layout

def plain : Layout := ⟨fun _ => true, []⟩

def listing : Layout := ⟨fun power => -4 ≤ power && power < 16, ['.', '0']⟩

def zeros (n : Nat) : List Char := List.replicate n '0'

def significant (d : Decimal) : List Char × Int :=
  let digits := Nat.toDigits 10 d.digits
  let stripped := (digits.reverse.dropWhile (· == '0')).reverse
  if stripped.isEmpty then (['0'], 0) else (stripped, d.exponent + digits.length - 1)

def natText (n : Nat) : List Char := Nat.toDigits 10 n

def intText (n : Int) : List Char :=
  if n < 0 then '-' :: natText n.natAbs else natText n.natAbs

def fixedPoint (wholeEnd digits : List Char) (power : Int) : List Char :=
  if power < 0 then '0' :: '.' :: zeros (-power - 1).toNat ++ digits
  else
    let places := power.toNat + 1
    if digits.length ≤ places then digits ++ zeros (places - digits.length) ++ wholeEnd
    else digits.take places ++ '.' :: digits.drop places

def scientific (digits : List Char) (power : Int) : List Char :=
  let places := digits.drop 1
  digits.take 1 ++ (if places.isEmpty then [] else '.' :: places) ++ 'e' :: intText power

def magnitude (l : Layout) (d : Decimal) : List Char :=
  let (digits, power) := significant d
  if l.positional power then fixedPoint l.wholeEnd digits power else scientific digits power

def write (l : Layout) (x : Float) : List Char :=
  match Binary64.ofFloat x with
  | .nan => "NaN".toList
  | .infinity negative => if negative then "-inf".toList else "inf".toList
  | .finite negative m e =>
    let body := l.magnitude (Decimal.shortest m e)
    if negative then '-' :: body else body

def text (l : Layout) (x : Float) : String := String.ofList (l.write x)

end Layout

end Formula
