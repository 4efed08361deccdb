namespace Formula

inductive Binary64 where
  | nan
  | infinity (negative : Bool)
  | finite (negative : Bool) (significand : Nat) (exponent : Int)
deriving DecidableEq, Repr

namespace Binary64

def infinityBits : Nat := 0x7FF * Nat.pow 2 52

def ofBits (bits : Nat) : Binary64 :=
  let negative := bits / Nat.pow 2 63 % 2 == 1
  let exponent : Nat := bits / Nat.pow 2 52 % Nat.pow 2 11
  let fraction : Nat := bits % Nat.pow 2 52
  if exponent = 0x7FF then
    if fraction = 0 then .infinity negative else .nan
  else if exponent = 0 then .finite negative fraction (-1074)
  else .finite negative (fraction + Nat.pow 2 52) ((exponent : Int) - 1075)

def ofFloat (x : Float) : Binary64 := ofBits x.toBits.toNat

def isNegative : Binary64 → Bool
  | .nan => false
  | .infinity negative => negative
  | .finite negative _ _ => negative

def roundQuotient (num den : Nat) : Nat :=
  let whole := num / den
  let twice := 2 * (num % den)
  if twice < den then whole
  else if den < twice then whole + 1
  else whole + whole % 2

def log2Quotient (num den : Nat) : Int :=
  let k : Int := num.log2 - den.log2
  if den * Nat.pow 2 k.toNat ≤ num * Nat.pow 2 (-k).toNat then k else k - 1

def lastPlace (num den : Nat) : Int :=
  max (-1074) (log2Quotient num den - 52)

/-- Bits of the double nearest to `num / den`. A significand that rounds up to the next power of two
carries into the exponent, which is what the addition of the two fields does. -/
def nearestBits (num den : Nat) : Nat :=
  if num = 0 then 0
  else
    let e := lastPlace num den
    let m := roundQuotient (num * Nat.pow 2 (-e).toNat) (den * Nat.pow 2 e.toNat)
    min infinityBits ((e + 1074).toNat * Nat.pow 2 52 + m)

def nearest (num den : Nat) : Float :=
  Float.ofBits (UInt64.ofNat (nearestBits num den))

def signed (negative : Bool) (magnitude : Float) : Float :=
  if negative then -magnitude else magnitude

def ofNat (n : Nat) : Float := nearest n 1

def ofInt (n : Int) : Float := signed (n < 0) (ofNat n.natAbs)

def scaled (significand : Nat) (exponent : Int) : Float :=
  nearest (significand * Nat.pow 2 exponent.toNat) (Nat.pow 2 (-exponent).toNat)

def wholePart (significand : Nat) (exponent : Int) : Nat :=
  significand * Nat.pow 2 exponent.toNat / Nat.pow 2 (-exponent).toNat

def isWhole (significand : Nat) (exponent : Int) : Bool :=
  significand * Nat.pow 2 exponent.toNat % Nat.pow 2 (-exponent).toNat == 0

def truncate (x : Float) : Int :=
  match ofFloat x with
  | .finite negative m e => if negative then -(wholePart m e : Int) else wholePart m e
  | _ => 0

def toNat? (x : Float) : Option Nat :=
  match ofFloat x with
  | .finite negative m e =>
    if isWhole m e && (!negative || m == 0) then some (wholePart m e) else none
  | _ => none

def trunc (x : Float) : Float :=
  match ofFloat x with
  | .finite negative m e => signed negative (ofNat (wholePart m e))
  | _ => x

def floor (x : Float) : Float :=
  match ofFloat x with
  | .finite negative m e =>
    let n := wholePart m e
    signed negative (ofNat (if negative && !isWhole m e then n + 1 else n))
  | _ => x

def ceil (x : Float) : Float :=
  match ofFloat x with
  | .finite negative m e =>
    let n := wholePart m e
    signed negative (ofNat (if !negative && !isWhole m e then n + 1 else n))
  | _ => x

/-- To the nearest whole number, a half toward positive infinity. The half is recognised after the
subtraction has been rounded. -/
def round (x : Float) : Float :=
  let whole := floor x
  if 0.5 ≤ x - whole then whole + 1 else whole

def remainder (x y : Float) : Float :=
  match ofFloat x, ofFloat y with
  | .finite negative m e, .finite _ n f =>
    if n = 0 then 0 / 0
    else
      let unit := min e f
      let left := m * Nat.pow 2 (e - unit).toNat % (n * Nat.pow 2 (f - unit).toNat)
      signed negative (scaled left unit)
  | .finite .., .infinity _ => x
  | _, _ => 0 / 0

end Binary64

namespace Word32

def ofFloat (x : Float) : Int32 := Int32.ofInt (Binary64.truncate x)

def toFloat (w : Int32) : Float := Binary64.ofInt w.toInt

def shiftAmount (x : Float) : Int32 := ofFloat x &&& 31

def or (x y : Float) : Float := toFloat (ofFloat x ||| ofFloat y)

def and (x y : Float) : Float := toFloat (ofFloat x &&& ofFloat y)

def complement (x : Float) : Float := toFloat (~~~ ofFloat x)

def shiftLeft (x y : Float) : Float := toFloat (ofFloat x <<< shiftAmount y)

def shiftRight (x y : Float) : Float := toFloat (ofFloat x >>> shiftAmount y)

end Word32

end Formula
