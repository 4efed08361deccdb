import Formula.Builtin
import Formula.Decimal
import Formula.Operator
import Formula.Text

namespace Formula

inductive Expr where
  | number (value : Float)
  | constant (name : String) (value : Float)
  | prefixed (op : PrefixOp) (operand : Expr)
  | binary (op : BinaryOp) (left right : Expr)
  | factorial (operand : Expr) (span : Text.Span)
  | call (name : String) (function : Builtin) (args : List Expr) (span : Text.Span)

namespace Expr

mutual

def size : Expr → Nat
  | number _ => 1
  | constant _ _ => 1
  | prefixed _ operand => operand.size + 1
  | binary _ left right => left.size + right.size + 2
  | factorial operand _ => operand.size + 2
  | call _ _ args _ => sizeAll args + 1

def sizeAll : List Expr → Nat
  | [] => 0
  | e :: es => e.size + sizeAll es + 1

end

mutual

def mapSpans (move : Text.Span → Text.Span) : Expr → Expr
  | number value => .number value
  | constant name value => .constant name value
  | prefixed op operand => .prefixed op (operand.mapSpans move)
  | binary op left right => .binary op (left.mapSpans move) (right.mapSpans move)
  | factorial operand span => .factorial (operand.mapSpans move) (move span)
  | call name function args span => .call name function (mapSpansAll move args) (move span)

def mapSpansAll (move : Text.Span → Text.Span) : List Expr → List Expr
  | [] => []
  | e :: es => e.mapSpans move :: mapSpansAll move es

end

def shift (d : Nat) (e : Expr) : Expr := e.mapSpans (·.shift d)

mutual

def subexpressions : Expr → List Expr
  | number value => [.number value]
  | constant name value => [.constant name value]
  | prefixed op operand => .prefixed op operand :: operand.subexpressions
  | binary op left right => .binary op left right :: (left.subexpressions ++ right.subexpressions)
  | factorial operand span => .factorial operand span :: operand.subexpressions
  | call name function args span => .call name function args span :: subexpressionsAll args

def subexpressionsAll : List Expr → List Expr
  | [] => []
  | e :: es => e.subexpressions ++ subexpressionsAll es

end

theorem mem_subexpressionsAll {d : Expr} {es : List Expr} :
    d ∈ subexpressionsAll es ↔ ∃ e ∈ es, d ∈ e.subexpressions := by
  induction es with
  | nil => simp [subexpressionsAll]
  | cons e es ih => simp [subexpressionsAll, ih]

def span? : Expr → Option Text.Span
  | factorial _ span => some span
  | call _ _ _ span => some span
  | _ => none

mutual

/-- The written expression in front of `rest`. -/
def sexprOnto (rest : List Char) : Expr → List Char
  | number value => Layout.plain.write value ++ rest
  | constant name _ => name.toList ++ rest
  | prefixed op operand => '(' :: op.symbol.spelling ++ ' ' :: operand.sexprOnto (')' :: rest)
  | binary op left right =>
    '(' :: op.symbol.spelling ++ ' ' :: left.sexprOnto (' ' :: right.sexprOnto (')' :: rest))
  | factorial operand _ =>
    '(' :: Symbol.bang.spelling ++ ' ' :: operand.sexprOnto (')' :: rest)
  | call name _ args _ => '(' :: name.toList ++ sexprAllOnto (')' :: rest) args

def sexprAllOnto (rest : List Char) : List Expr → List Char
  | [] => rest
  | e :: es => ' ' :: e.sexprOnto (sexprAllOnto rest es)

end

def sexpr (e : Expr) : String := String.ofList (e.sexprOnto [])

end Expr

inductive Phrase where
  | number (value : Float)
  | constant (name : String) (value : Float)
  | bracketed (inner : Phrase)
  | prefixed (op : PrefixOp) (operand : Phrase)
  | binary (op : BinaryOp) (left right : Phrase)
  | factorial (operand : Phrase) (span : Text.Span)
  | call (name : String) (function : Builtin) (args : List Phrase) (span : Text.Span)

namespace Phrase

mutual

def expr : Phrase → Expr
  | number value => .number value
  | constant name value => .constant name value
  | bracketed inner => inner.expr
  | prefixed op operand => .prefixed op operand.expr
  | binary op left right => .binary op left.expr right.expr
  | factorial operand span => .factorial operand.expr span
  | call name function args span => .call name function (exprAll args) span

def exprAll : List Phrase → List Expr
  | [] => []
  | p :: ps => p.expr :: exprAll ps

end

theorem exprAll_eq_map (ps : List Phrase) : exprAll ps = ps.map expr := by
  induction ps with
  | nil => rfl
  | cons p ps ih => rw [exprAll, ih, List.map_cons]

end Phrase

end Formula
