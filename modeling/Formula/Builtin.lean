import Formula.Binary64

namespace Formula

inductive Builtin where
  | unary (f : Float → Float)
  | binary (f : Float → Float → Float)

namespace Builtin

def arity : Builtin → Nat
  | unary _ => 1
  | binary _ => 2

theorem arity_pos (f : Builtin) : 0 < f.arity := by
  cases f <;> exact Nat.succ_pos _

def call? : Builtin → List Float → Option Float
  | unary f, [x] => some (f x)
  | binary f, [x, y] => some (f x y)
  | _, _ => none

theorem isSome_call?_iff (f : Builtin) (args : List Float) :
    (f.call? args).isSome = true ↔ args.length = f.arity := by
  cases f <;> rcases args with _ | ⟨x, _ | ⟨y, _ | ⟨z, rest⟩⟩⟩ <;> simp [call?, arity]

def log (base x : Float) : Float := Float.log x / Float.log base

def functions : List (String × Builtin) :=
  [("abs", .unary Float.abs), ("sqrt", .unary Float.sqrt), ("sin", .unary Float.sin),
    ("cos", .unary Float.cos), ("tan", .unary Float.tan), ("asin", .unary Float.asin),
    ("acos", .unary Float.acos), ("atan", .unary Float.atan), ("ln", .unary Float.log),
    ("log2", .unary Float.log2), ("log10", .unary Float.log10), ("exp", .unary Float.exp),
    ("round", .unary Binary64.round), ("trunc", .unary Binary64.trunc),
    ("floor", .unary Binary64.floor), ("ceil", .unary Binary64.ceil), ("log", .binary log)]

def ofName? (s : String) : Option Builtin := (functions.find? (·.1 == s)).map Prod.snd

end Builtin

inductive Binding where
  | constant (value : Float)
  | function (f : Builtin)

namespace Binding

def pi : Float := Float.ofBits 0x400921FB54442D18

def e : Float := Float.ofBits 0x4005BF0A8B145769

def constants : List (String × Float) := [("PI", pi), ("π", pi), ("E", e)]

def ofName? (s : String) : Option Binding :=
  match constants.find? (·.1 == s) with
  | some entry => some (.constant entry.2)
  | none => (Builtin.ofName? s).map .function

end Binding

end Formula
