import Formula.Expr.Basic
import Formula.Fault

namespace Formula

def largestFactorial : Nat := 170

def factorialProduct (n : Nat) : Float :=
  (List.range' 2 (n - 1)).foldl (fun product i => product * Binary64.ofNat i) 1

def factorial? (x : Float) : Option Float :=
  (Binary64.toNat? x).map fun n => if largestFactorial < n then 1 / 0 else factorialProduct n

namespace Expr

def factorialAt (span : Text.Span) (x : Float) : Except Fault Float :=
  match factorial? x with
  | some y => .ok y
  | none => .error (.domain (.factorial x span))

def callAt (name : String) (function : Builtin) (span : Text.Span) (args : List Float) :
    Except Fault Float :=
  match function.call? args with
  | some y => .ok y
  | none => .error (.syntactic (.arityMismatch name function.arity args.length span))

mutual

def value : Expr → Except Fault Float
  | number x => .ok x
  | constant _ x => .ok x
  | prefixed op operand => do return op.apply (← operand.value)
  | binary op left right => do
    let x ← left.value
    let y ← right.value
    return op.apply x y
  | factorial operand span => do factorialAt span (← operand.value)
  | call name function args span => do callAt name function span (← valueAll args)

def valueAll : List Expr → Except Fault (List Float)
  | [] => .ok []
  | e :: es => do
    let x ← e.value
    let xs ← valueAll es
    return x :: xs

end

inductive Pending where
  | binary (op : BinaryOp) (right : Expr)
  | factorial (span : Text.Span)

def Pending.size : Pending → Nat
  | binary _ right => right.size + 1
  | factorial _ => 1

def pendingSize (work : List Pending) : Nat := work.foldr (fun p n => p.size + n) 0

@[simp] theorem pendingSize_nil : pendingSize [] = 0 := rfl

@[simp] theorem pendingSize_cons (p : Pending) (work : List Pending) :
    pendingSize (p :: work) = p.size + pendingSize work := rfl

mutual

/-- Goes down the left operands to the first value, and leaves the rest of the work pending. -/
def descend (work : List Pending) (e : Expr) : Except Fault Float :=
  match e with
  | number x => resume x work
  | constant _ x => resume x work
  | prefixed op operand => do resume (op.apply (← descend [] operand)) work
  | binary op left right => descend (.binary op right :: work) left
  | factorial operand span => descend (.factorial span :: work) operand
  | call name function args span => do
    resume (← callAt name function span (← descendAll args)) work
termination_by e.size + pendingSize work
decreasing_by all_goals simp [size, Pending.size]; try omega

def resume (x : Float) (work : List Pending) : Except Fault Float :=
  match work with
  | [] => .ok x
  | .binary op right :: work => do resume (op.apply x (← descend [] right)) work
  | .factorial span :: work => do resume (← factorialAt span x) work
termination_by pendingSize work
decreasing_by all_goals simp [Pending.size]; try omega

def descendAll (es : List Expr) : Except Fault (List Float) :=
  match es with
  | [] => .ok []
  | e :: es => do
    let x ← descend [] e
    let xs ← descendAll es
    return x :: xs
termination_by sizeAll es
decreasing_by all_goals simp [sizeAll]; try omega

end

def eval (e : Expr) : Except Fault Float := descend [] e

end Expr

end Formula
