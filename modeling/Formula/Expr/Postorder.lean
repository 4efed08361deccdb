import Formula.Expr.Basic

namespace Formula

inductive Node where
  | number (value : Float)
  | constant (name : String) (value : Float)
  | prefixed (op : PrefixOp)
  | binary (op : BinaryOp)
  | factorial (span : Text.Span)
  | call (name : String) (function : Builtin) (count : Nat) (span : Text.Span)

namespace Expr

mutual

def postorderOnto (rest : List Node) : Expr → List Node
  | number value => .number value :: rest
  | constant name value => .constant name value :: rest
  | prefixed op operand => operand.postorderOnto (.prefixed op :: rest)
  | binary op left right => left.postorderOnto (right.postorderOnto (.binary op :: rest))
  | factorial operand span => operand.postorderOnto (.factorial span :: rest)
  | call name function args span =>
    postorderAllOnto (.call name function args.length span :: rest) args

def postorderAllOnto (rest : List Node) : List Expr → List Node
  | [] => rest
  | e :: es => e.postorderOnto (postorderAllOnto rest es)

end

def postorder (e : Expr) : List Node := e.postorderOnto []

end Expr

namespace Node

def push : List Expr → Node → Option (List Expr)
  | stack, number value => some (.number value :: stack)
  | stack, constant name value => some (.constant name value :: stack)
  | operand :: stack, prefixed op => some (.prefixed op operand :: stack)
  | right :: left :: stack, binary op => some (.binary op left right :: stack)
  | operand :: stack, factorial span => some (.factorial operand span :: stack)
  | stack, call name function count span =>
    if count ≤ stack.length then
      some (.call name function (stack.take count).reverse span :: stack.drop count)
    else none
  | _, _ => none

end Node

def Expr.ofPostorder? (nodes : List Node) : Option Expr :=
  match nodes.foldlM Node.push [] with
  | some [e] => some e
  | _ => none

end Formula
