import Formula.Expr.Eval

/-!
The value of an expression together with the number of evaluations that are active at one time: each
counts itself when it begins, and the greatest count so far is kept.
-/

namespace Formula.Expr

/-- An evaluation that keeps the greatest number of evaluations that have been active at one time. -/
abbrev Counted (α : Type) := ExceptT Fault (StateM Nat) α

namespace Counted

def lift {α : Type} (r : Except Fault α) : Counted α := fun peak => (r, peak)

def entering {α : Type} (active : Nat) (run : Counted α) : Counted α := fun peak => run (max peak active)

end Counted

open Counted

mutual

def descendCounted (active : Nat) (work : List Pending) (e : Expr) : Counted Float :=
  match e with
  | number x => resumeCounted active x work
  | constant _ x => resumeCounted active x work
  | prefixed op operand => do
    let x ← entering (active + 1) (descendCounted (active + 1) [] operand)
    resumeCounted active (op.apply x) work
  | binary op left right => descendCounted active (.binary op right :: work) left
  | factorial operand span => descendCounted active (.factorial span :: work) operand
  | call name function args span => do
    let xs ← descendAllCounted active args
    let x ← lift (callAt name function span xs)
    resumeCounted active x work
termination_by e.size + pendingSize work
decreasing_by all_goals simp [size, Pending.size]; try omega

def resumeCounted (active : Nat) (x : Float) (work : List Pending) : Counted Float :=
  match work with
  | [] => return x
  | .binary op right :: work => do
    let y ← entering (active + 1) (descendCounted (active + 1) [] right)
    resumeCounted active (op.apply x y) work
  | .factorial span :: work => do
    let y ← lift (factorialAt span x)
    resumeCounted active y work
termination_by pendingSize work
decreasing_by all_goals simp [Pending.size]; try omega

def descendAllCounted (active : Nat) (es : List Expr) : Counted (List Float) :=
  match es with
  | [] => return []
  | e :: es => do
    let x ← entering (active + 1) (descendCounted (active + 1) [] e)
    let xs ← descendAllCounted active es
    return x :: xs
termination_by sizeAll es
decreasing_by all_goals simp [sizeAll]; try omega

end

def evalCounted (e : Expr) : Counted Float := entering 1 (descendCounted 1 [] e)

def peak (e : Expr) : Nat := (e.evalCounted 0).2

end Formula.Expr
