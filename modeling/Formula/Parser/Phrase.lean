import Formula.Expr.Basic
import Formula.Parser.Parse

/-!
Phrases out of items, by precedence climbing. Every action is given the parser of the phrases one level
of nesting further down, so the levels that are left bound the recursion.
-/

namespace Formula.Parse

/-- Parsers of phrases whose suffixes bind at least as tightly as a given power. -/
abbrev Below := Nat → Parse Phrase

def unexpected {α : Type} (t : Token) (expected : Expected) : Parse α :=
  fail (.syntactic (.unexpectedToken t.text expected t.span))

def closing (paren : Token) : Parse Unit := do
  match ← next with
  | none => fail (.syntactic (.unclosedParen paren.span))
  | some t => if t.isSymbol .rightParen then return () else unexpected t .closingParen

def moreArguments (below : Below) (paren : Token) (items : List Item) :
    Parsed (List Phrase × Text.Span) :=
  match below 0 items with
  | ⟨.error f, used⟩ => ⟨.error f, used⟩
  | ⟨.ok p, used⟩ =>
    match h : items.drop used with
    | [] => ⟨.error (.syntactic (.unclosedParen paren.span)), used⟩
    | .error f :: _ => ⟨.error (.lexical f), used + 1⟩
    | .ok t :: rest =>
      if t.isSymbol .comma then
        match moreArguments below paren rest with
        | ⟨.error f, more⟩ => ⟨.error f, used + 1 + more⟩
        | ⟨.ok (ps, close), more⟩ => ⟨.ok (p :: ps, close), used + 1 + more⟩
      else if t.isSymbol .rightParen then ⟨.ok ([p], t.span), used + 1⟩
      else ⟨.error (.syntactic (.unexpectedToken t.text .commaOrClosingParen t.span)), used + 1⟩
termination_by items.length
decreasing_by
  have hl := congrArg List.length h
  simp only [List.length_drop, List.length_cons] at hl
  omega

def arguments (below : Below) (paren : Token) : Parse (List Phrase × Text.Span) := do
  match (← peek).filter (·.isSymbol .rightParen) with
  | some close =>
    let _ ← next
    return ([], close.span)
  | none => moreArguments below paren

def named (below : Below) (t : Token) : Parse Phrase := do
  let ahead ← peek
  match Binding.ofName? t.text, ahead.filter (·.isSymbol .leftParen) with
  | none, _ => fail (.syntactic (.unknownName t.text t.span))
  | some (.constant _), some _ => fail (.syntactic (.constantCalled t.text t.span))
  | some (.constant value), none => return .constant t.text value
  | some (.function _), none => fail (.syntactic (.functionNotCalled t.text t.span))
  | some (.function f), some paren =>
    let _ ← next
    let (args, close) ← arguments below paren
    let span := t.span.upTo close
    if args.length = f.arity then return .call t.text f args span
    else fail (.syntactic (.arityMismatch t.text f.arity args.length span))

def operand (atEnd : Text.Span) (below : Below) : Parse Phrase := do
  match ← next with
  | none => fail (.syntactic (.unexpectedEnd .expression atEnd))
  | some t =>
    match t.kind with
    | .number value => return .number value
    | .name => named below t
    | .symbol .leftParen =>
      let p ← below 0
      closing t
      return .bracketed p
    | .symbol s =>
      match PrefixOp.ofSymbol? s with
      | some op => return .prefixed op (← below prefixPower)
      | none => unexpected t .expression

def climb (below : Below) (power : Nat) (left : Phrase) (items : List Item) : Parsed Phrase :=
  match items with
  | [] => ⟨.ok left, 0⟩
  | .error f :: _ => ⟨.error (.lexical f), 0⟩
  | .ok t :: rest =>
    match Suffix.ofToken? t with
    | none => ⟨.ok left, 0⟩
    | some suffix =>
      if suffix.power < power then ⟨.ok left, 0⟩
      else
        match suffix with
        | .factorial => (climb below power (.factorial left t.span) rest).after 1
        | .binary op =>
          match below op.rightPower rest with
          | ⟨.error f, used⟩ => ⟨.error f, 1 + used⟩
          | ⟨.ok right, used⟩ =>
            (climb below power (.binary op left right) (rest.drop used)).after (1 + used)
termination_by items.length
decreasing_by all_goals simp only [List.length_drop, List.length_cons]; omega

def depthSpan (atEnd : Text.Span) (items : List Item) : Text.Span :=
  match items with
  | .ok t :: _ => t.span
  | _ => atEnd

def phrase (limit : Nat) (atEnd : Text.Span) (levels power : Nat) : Parse Phrase :=
  match levels with
  | 0 => fun items => ⟨.error (.syntactic (.tooDeep limit (depthSpan atEnd items))), 0⟩
  | levels + 1 => do
    let left ← operand atEnd (phrase limit atEnd levels)
    climb (phrase limit atEnd levels) power left

def whole (maxDepth : Nat) (atEnd : Text.Span) : Parse Phrase := do
  let p ← phrase maxDepth atEnd maxDepth 0
  match ← next with
  | none => return p
  | some t => fail (.syntactic (.trailingInput t.text t.span))

end Formula.Parse
