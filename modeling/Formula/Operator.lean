import Formula.Symbol
import Formula.Binary64

namespace Formula

inductive PrefixOp where
  | negate
  | keep
  | complement
deriving DecidableEq, Repr

inductive BinaryOp where
  | add
  | subtract
  | multiply
  | divide
  | remainder
  | power
  | or
  | and
  | shiftLeft
  | shiftRight
  | less
  | lessEqual
  | greater
  | greaterEqual
  | equal
  | notEqual
deriving DecidableEq, Repr

namespace PrefixOp

def all : List PrefixOp := [negate, keep, complement]

def symbol : PrefixOp → Symbol
  | negate => .minus
  | keep => .plus
  | complement => .tilde

def ofSymbol? (s : Symbol) : Option PrefixOp := all.find? (·.symbol == s)

def apply (op : PrefixOp) (x : Float) : Float :=
  match op with
  | negate => -x
  | keep => x
  | complement => Word32.complement x

end PrefixOp

namespace BinaryOp

def all : List BinaryOp :=
  [add, subtract, multiply, divide, remainder, power, or, and, shiftLeft, shiftRight, less, lessEqual,
    greater, greaterEqual, equal, notEqual]

def symbol : BinaryOp → Symbol
  | add => .plus
  | subtract => .minus
  | multiply => .star
  | divide => .slash
  | remainder => .percent
  | power => .caret
  | or => .pipe
  | and => .ampersand
  | shiftLeft => .shiftLeft
  | shiftRight => .shiftRight
  | less => .less
  | lessEqual => .lessEqual
  | greater => .greater
  | greaterEqual => .greaterEqual
  | equal => .equalEqual
  | notEqual => .bangEqual

def ofSymbol? (s : Symbol) : Option BinaryOp := all.find? (·.symbol == s)

/-- Levels of precedence, the loosest first: comparisons, or, and, shifts, sums, products, powers. -/
def precedence : BinaryOp → Nat
  | less | lessEqual | greater | greaterEqual | equal | notEqual => 1
  | or => 2
  | and => 3
  | shiftLeft | shiftRight => 4
  | add | subtract => 5
  | multiply | divide | remainder => 6
  | power => 7

def groupsRight (op : BinaryOp) : Bool := op == power

def leftPower (op : BinaryOp) : Nat :=
  if op.groupsRight then 2 * op.precedence else 2 * op.precedence - 1

def rightPower (op : BinaryOp) : Nat :=
  if op.groupsRight then 2 * op.precedence - 1 else 2 * op.precedence

def truth (b : Bool) : Float := if b then 1 else 0

def apply (op : BinaryOp) (x y : Float) : Float :=
  match op with
  | add => x + y
  | subtract => x - y
  | multiply => x * y
  | divide => x / y
  | remainder => Binary64.remainder x y
  | power => Float.pow x y
  | or => Word32.or x y
  | and => Word32.and x y
  | shiftLeft => Word32.shiftLeft x y
  | shiftRight => Word32.shiftRight x y
  | less => truth (x < y)
  | lessEqual => truth (x ≤ y)
  | greater => truth (y < x)
  | greaterEqual => truth (y ≤ x)
  | equal => truth (x == y)
  | notEqual => truth (x != y)

end BinaryOp

def prefixPower : Nat := 15

def postfixPower : Nat := 17

end Formula
