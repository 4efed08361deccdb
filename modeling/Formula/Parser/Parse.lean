import Formula.Fault
import Formula.Operator
import Formula.Token.Basic

namespace Formula

inductive Suffix where
  | factorial
  | binary (op : BinaryOp)
deriving DecidableEq, Repr

namespace Suffix

def ofSymbol? (s : Symbol) : Option Suffix :=
  if s = .bang then some .factorial else (BinaryOp.ofSymbol? s).map .binary

def ofToken? (t : Token) : Option Suffix :=
  match t.kind with
  | .symbol s => ofSymbol? s
  | _ => none

def power : Suffix → Nat
  | factorial => postfixPower
  | binary op => op.leftPower

end Suffix

structure Parsed (α : Type) where
  result : Except Fault α
  /-- How many items have been used up, also where the result is a fault. -/
  used : Nat

def Parsed.after {α : Type} (n : Nat) (p : Parsed α) : Parsed α := ⟨p.result, n + p.used⟩

def Parse (α : Type) : Type := List Item → Parsed α

namespace Parse

def pure {α : Type} (x : α) : Parse α := fun _ => ⟨.ok x, 0⟩

def fail {α : Type} (f : Fault) : Parse α := fun _ => ⟨.error f, 0⟩

def bind {α β : Type} (p : Parse α) (k : α → Parse β) : Parse β := fun items =>
  match p items with
  | ⟨.error f, used⟩ => ⟨.error f, used⟩
  | ⟨.ok x, used⟩ => (k x (items.drop used)).after used

instance : Monad Parse where
  pure := pure
  bind := bind

def next : Parse (Option Token)
  | [] => ⟨.ok none, 0⟩
  | .ok t :: _ => ⟨.ok (some t), 1⟩
  | .error f :: _ => ⟨.error (.lexical f), 1⟩

def peek : Parse (Option Token) := fun items => ⟨(next items).result, 0⟩

end Parse

end Formula
