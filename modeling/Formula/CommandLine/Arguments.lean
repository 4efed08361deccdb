import Formula.Evaluate
import Formula.Literal

/-!
The arguments of the program: options that set limits, before and behind the name of a command, and the
expression that most commands take.
-/

namespace Formula.CommandLine

inductive Command where
  | tokenize (text : String)
  | parse (text : String)
  | evaluate (text : String)
  | check (text : String)
  | session
deriving DecidableEq, Repr

inductive Request where
  | run (limits : Limits) (command : Command)
  | version
  | malformed
deriving DecidableEq, Repr

abbrev Verb := List (List Char) → Option Command

def Verb.ofText (make : String → Command) : Verb
  | [s] => some (make (String.ofList s))
  | _ => none

def Verb.ofName? (name : List Char) : Option Verb :=
  match String.ofList name with
  | "tokenize" => some (.ofText .tokenize)
  | "parse" => some (.ofText .parse)
  | "eval" => some (.ofText .evaluate)
  | "check" => some (.ofText .check)
  | "calc" => some fun operands => if operands.isEmpty then some .session else none
  | _ => none

inductive Bound where
  | length
  | depth
deriving DecidableEq, Repr

def Bound.ofOption? (name : List Char) : Option Bound :=
  match String.ofList name with
  | "--max-len" => some .length
  | "--max-depth" => some .depth
  | _ => none

inductive Argument where
  | bound (b : Bound) (value : List Char)
  | lonelyBound
  | word (s : List Char)
  | separator
  | operand (s : List Char)
deriving DecidableEq, Repr

def readBound? (arg : List Char) : Option (Bound × Option (List Char)) :=
  let value :=
    match arg.dropWhile (· != '=') with
    | [] => none
    | _ :: value => some value
  (Bound.ofOption? (arg.takeWhile (· != '='))).map fun b => (b, value)

def Argument.ofWords : List (List Char) → List Argument
  | [] => []
  | arg :: rest =>
    match readBound? arg with
    | some (b, some value) => .bound b value :: ofWords rest
    | some (b, none) =>
      match rest with
      | [] => [.lonelyBound]
      | value :: rest => .bound b value :: ofWords rest
    | none =>
      if arg = ['-', '-'] then .separator :: rest.map .operand
      else .word arg :: ofWords rest

def unsigned? (s : List Char) : Option Nat :=
  let digits := if s.head? = some '+' then s.drop 1 else s
  if digits.isEmpty || !digits.all Char.isDigit then none
  else
    let n := Radix.decimal.value digits
    if n < Nat.pow 2 64 then some n else none

structure Settings where
  maxLength : Option Nat := none
  maxDepth : Option Nat := none
deriving DecidableEq, Repr

namespace Settings

def set? (s : Settings) (b : Bound) (value : List Char) : Option Settings := do
  let n ← unsigned? value
  match b with
  | .length => if s.maxLength.isSome then none else some { s with maxLength := some n }
  | .depth => if s.maxDepth.isSome then none else some { s with maxDepth := some n }

/-- Settings behind the name of the command win over those before it. -/
def limits (outer inner : Settings) : Limits :=
  let defaults : Limits := {}
  ⟨(inner.maxLength.or outer.maxLength).getD defaults.maxLength,
    (inner.maxDepth.or outer.maxDepth).getD defaults.maxDepth⟩

end Settings

namespace Request

/-- A lone dash is an operand; whatever else begins with a dash is an option. -/
def isOption (s : List Char) : Bool := s.head? == some '-' && s != ['-']

def isVersion (s : List Char) : Bool := s == "--version".toList || "-V".toList.isPrefixOf s

def ofCommand (verb : Verb) (outer inner : Settings) (operands : List (List Char)) :
    List Argument → Request
  | [] =>
    match verb operands with
    | some command => .run (Settings.limits outer inner) command
    | none => .malformed
  | .bound b value :: rest =>
    match inner.set? b value with
    | some inner => ofCommand verb outer inner operands rest
    | none => .malformed
  | .lonelyBound :: _ => .malformed
  | .word s :: rest =>
    if isOption s then .malformed else ofCommand verb outer inner (operands ++ [s]) rest
  | .separator :: rest => ofCommand verb outer inner operands rest
  | .operand s :: rest => ofCommand verb outer inner (operands ++ [s]) rest

def ofArguments (outer : Settings) : List Argument → Request
  | .bound b value :: rest =>
    match outer.set? b value with
    | some outer => ofArguments outer rest
    | none => .malformed
  | .word s :: rest =>
    if isVersion s then .version
    else
      match Verb.ofName? s with
      | some verb => ofCommand verb outer {} [] rest
      | none => .malformed
  | _ => .malformed

end Request

def Request.ofWords (words : List String) : Request :=
  Request.ofArguments {} (Argument.ofWords (words.map String.toList))

end Formula.CommandLine
