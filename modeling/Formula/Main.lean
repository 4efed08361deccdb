import Formula.CommandLine.Run

namespace Formula.CommandLine

def put (outcome : Outcome) : IO Unit := do
  let stdout ← IO.getStdout
  stdout.putStr outcome.output
  stdout.flush
  outcome.complaints.forM IO.eprintln

/-- The turns of `session`, each as soon as its line is read. -/
partial def interact (limits : Limits) : IO Unit := do
  put opening
  let line ← (← IO.getStdin).getLine
  let (here, goesOn) := turn limits (if line.isEmpty then none else some line.toList)
  put here
  if goesOn then interact limits

def perform : Request → IO UInt32
  | .run limits .session => do
    interact limits
    return 0
  | request => do
    let outcome := request.outcome ""
    put outcome
    return outcome.status.toUInt32

end Formula.CommandLine

def main (words : List String) : IO UInt32 :=
  Formula.CommandLine.perform (Formula.CommandLine.Request.ofWords words)
