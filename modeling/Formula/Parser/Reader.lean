import Formula.Evaluate
import Formula.Token.Cursor

/-!
The parser of a text step by step: it reads items through a cursor and counts how deep in expressions it
is. A call may leave the cursor anywhere, and the next call goes on there.
-/

namespace Formula

structure Reader where
  cursor : Cursor
  depth : Nat
  peak : Nat

namespace Reader

def ofText (s : List Char) : Reader := ⟨.ofText s, 0, 0⟩

def unread (r : Reader) : List Item := r.cursor.unread

/-- No outcome stands for a run that begins again with nothing used up, and for a depth below zero. -/
abbrev Action (α : Type) := ExceptT Fault (StateT Reader Option) α

/-- An action that may begin again inside of itself, with other data and fewer items to be read. -/
def recurring {σ α : Type} (body : (σ → Action α) → σ → Action α) (x : σ) (r : Reader) :
    Option (Except Fault α × Reader) :=
  body (fun y r' => if r'.unread.length < r.unread.length then recurring body y r' else none) x r
termination_by r.unread.length

def token? : Option Item → Except Fault (Option Token)
  | none => .ok none
  | some (.ok t) => .ok (some t)
  | some (.error f) => .error (.lexical f)

def next : Action (Option Token) := fun r =>
  some (token? r.cursor.next.1, { r with cursor := r.cursor.next.2 })

def peek : Action (Option Token) := fun r =>
  some (token? r.cursor.peek.1, { r with cursor := r.cursor.peek.2 })

def unexpected {α : Type} (t : Token) (expected : Expected) : Action α :=
  throw (.syntactic (.unexpectedToken t.text expected t.span))

def closing (paren : Token) : Action Unit := do
  match ← next with
  | none => throw (.syntactic (.unclosedParen paren.span))
  | some t => if t.isSymbol .rightParen then return () else unexpected t .closingParen

def enter (r : Reader) : Reader :=
  { r with depth := r.depth + 1, peak := max r.peak (r.depth + 1) }

def leave (r : Reader) : Option Reader :=
  match r.depth with
  | 0 => none
  | depth + 1 => some { r with depth }

def deeper {α : Type} (a : Action α) : Action α := fun r => do
  let (result, behind) ← a r.enter
  return (result, ← behind.leave)

def aheadSpan (atEnd : Text.Span) : Option Item → Text.Span
  | some (.ok t) => t.span
  | _ => atEnd

def tooDeep (limit : Nat) (atEnd : Text.Span) : Action Phrase := fun r =>
  some (.error (.syntactic (.tooDeep limit (aheadSpan atEnd r.cursor.peek.1))),
    { r with cursor := r.cursor.peek.2 })

variable (limit : Nat) (atEnd : Text.Span) (inner : Nat → Action Phrase)

def moreArguments (paren : Token) : Action (List Phrase × Text.Span) :=
  recurring (fun again _ => do
    let p ← inner 0
    match ← next with
    | none => throw (.syntactic (.unclosedParen paren.span))
    | some t =>
      if t.isSymbol .comma then
        let (ps, close) ← again ()
        return (p :: ps, close)
      else if t.isSymbol .rightParen then return ([p], t.span)
      else unexpected t .commaOrClosingParen) ()

def arguments (paren : Token) : Action (List Phrase × Text.Span) := do
  match (← peek).filter (·.isSymbol .rightParen) with
  | some close =>
    let _ ← next
    return ([], close.span)
  | none => moreArguments inner paren

def named (t : Token) : Action Phrase := do
  let ahead ← peek
  match Binding.ofName? t.text, ahead.filter (·.isSymbol .leftParen) with
  | none, _ => throw (.syntactic (.unknownName t.text t.span))
  | some (.constant _), some _ => throw (.syntactic (.constantCalled t.text t.span))
  | some (.constant value), none => return .constant t.text value
  | some (.function _), none => throw (.syntactic (.functionNotCalled t.text t.span))
  | some (.function f), some paren =>
    let _ ← next
    let (args, close) ← arguments inner paren
    let span := t.span.upTo close
    if args.length = f.arity then return .call t.text f args span
    else throw (.syntactic (.arityMismatch t.text f.arity args.length span))

def operand : Action Phrase := do
  match ← next with
  | none => throw (.syntactic (.unexpectedEnd .expression atEnd))
  | some t =>
    match t.kind with
    | .number value => return .number value
    | .name => named inner t
    | .symbol .leftParen =>
      let p ← inner 0
      closing t
      return .bracketed p
    | .symbol s =>
      match PrefixOp.ofSymbol? s with
      | some op => return .prefixed op (← inner prefixPower)
      | none => unexpected t .expression

def climb (power : Nat) (left : Phrase) : Action Phrase :=
  recurring (fun again left => do
    match ← peek with
    | none => return left
    | some t =>
      match Suffix.ofToken? t with
      | none => return left
      | some suffix =>
        if suffix.power < power then return left
        else
          let _ ← next
          match suffix with
          | .factorial => again (.factorial left t.span)
          | .binary op =>
            let right ← inner op.rightPower
            again (.binary op left right)) left

def opened (power : Nat) : Action Phrase := do
  let left ← operand atEnd inner
  climb inner power left

def expression (power : Nat) : Action Phrase :=
  recurring (fun inner power => deeper fun r =>
    if limit < r.depth then tooDeep limit atEnd r else opened atEnd inner power r) power

def whole : Action Phrase := do
  let p ← expression limit atEnd 0
  match ← next with
  | none => return p
  | some t => throw (.syntactic (.trailingInput t.text t.span))

def parse (limits : Limits) (length : Nat) (r : Reader) : Option (Except Fault Expr × Reader) :=
  if limits.maxLength < length then
    some (.error (.syntactic (.tooLong length limits.maxLength)), r)
  else do
    let (result, behind) ← whole limits.maxDepth ⟨length, 0⟩ r
    some (result.map Phrase.expr, behind)

def parseTimes (limits : Limits) (length : Nat) : Nat → Reader → Option (List (Except Fault Expr) × Reader)
  | 0, r => some ([], r)
  | n + 1, r => do
    let (answer, behind) ← r.parse limits length
    let (answers, last) ← parseTimes limits length n behind
    some (answer :: answers, last)

end Reader

end Formula
