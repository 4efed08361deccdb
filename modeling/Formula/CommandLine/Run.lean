import Formula.Alphabet
import Formula.CommandLine.Arguments
import Formula.Evaluate

namespace Formula.CommandLine

structure Outcome where
  output : String
  complaints : List String
  status : Nat
deriving DecidableEq, Repr

def report (f : Fault) : String := f.code ++ ": " ++ f.message

namespace Outcome

def printed (line : String) : Outcome := ⟨line ++ "\n", [], 0⟩

def failed (f : Fault) : Outcome := ⟨"", [report f], 1⟩

def ofExcept {α : Type} (text : α → String) : Except Fault α → Outcome
  | .ok x => printed (text x)
  | .error f => failed f

def followedBy (first second : Outcome) : Outcome :=
  ⟨first.output ++ second.output, first.complaints ++ second.complaints, second.status⟩

end Outcome

inductive Response where
  | nothing
  | value (x : Float)
  | fault (f : Fault)
  | stop

def Response.ofLine (limits : Limits) (line : List Char) : Response :=
  let text := Text.trim line
  if text.isEmpty then .nothing
  else if text.map Char.toLower = "exit".toList then .stop
  else
    match evaluate limits (String.ofList text) with
    | .ok x => .value x
    | .error f => .fault f

def Response.outcome : Response → Outcome
  | nothing => ⟨"", [], 0⟩
  | value x => .printed (Layout.plain.text x)
  | fault f => ⟨"", [report f], 0⟩
  | stop => ⟨"", [], 0⟩

def Response.stops : Response → Bool
  | stop => true
  | _ => false

def prompt : String := "calc> "

def opening : Outcome := ⟨prompt, [], 0⟩

/-- What comes of the next line, or of the end of the input, and whether the session goes on. -/
def turn (limits : Limits) : Option (List Char) → Outcome × Bool
  | none => (⟨"", [], 0⟩, false)
  | some line =>
    let response := Response.ofLine limits line
    (response.outcome, !response.stops)

def session (limits : Limits) : List (List Char) → Outcome
  | [] => opening.followedBy (turn limits none).1
  | line :: rest =>
    let (here, goesOn) := turn limits (some line)
    if goesOn then (opening.followedBy here).followedBy (session limits rest)
    else opening.followedBy here

def version : String := "inline-calc 0.1.0"

def usage : String :=
  "usage: inline-calc [--max-len N] [--max-depth N] tokenize|parse|eval|check EXPRESSION, or calc"

def tokenLine (t : Token) : String :=
  t.kind.label ++ " \"" ++ t.text ++ "\" @" ++ decimalText t.offset

def listing : List Item → Outcome
  | [] => ⟨"", [], 0⟩
  | .error f :: _ => .failed (.lexical f)
  | .ok t :: rest => (Outcome.printed (tokenLine t)).followedBy (listing rest)

def Command.outcome (limits : Limits) (input : String) : Command → Outcome
  | tokenize text => listing (Formula.tokenize text)
  | parse text => .ofExcept Expr.sexpr (Formula.parse limits text)
  | evaluate text => .ofExcept Layout.plain.text (Formula.evaluate limits text)
  | check text => .printed (if looksValid text then "true" else "false")
  | session => CommandLine.session limits (Text.lines input.toList)

def Request.outcome (input : String) : Request → Outcome
  | run limits command => command.outcome limits input
  | version => .printed CommandLine.version
  | malformed => ⟨"", [usage], 2⟩

def run (words : List String) (input : String) : Outcome :=
  (Request.ofWords words).outcome input

end Formula.CommandLine
