import Formula.Token.Basic

namespace Formula

inductive Expected where
  | expression
  | closingParen
  | commaOrClosingParen
deriving DecidableEq, Repr

inductive SyntacticFault where
  | unexpectedToken (found : String) (expected : Expected) (span : Text.Span)
  | unexpectedEnd (expected : Expected) (span : Text.Span)
  | unclosedParen (span : Text.Span)
  | trailingInput (found : String) (span : Text.Span)
  | unknownName (name : String) (span : Text.Span)
  | constantCalled (name : String) (span : Text.Span)
  | functionNotCalled (name : String) (span : Text.Span)
  | arityMismatch (name : String) (arity given : Nat) (span : Text.Span)
  | tooDeep (limit : Nat) (span : Text.Span)
  | tooLong (length limit : Nat)
deriving DecidableEq, Repr

inductive DomainFault where
  | factorial (operand : Float) (span : Text.Span)

inductive Fault where
  | lexical (f : LexicalFault)
  | syntactic (f : SyntacticFault)
  | domain (f : DomainFault)

def Expected.text : Expected → String
  | expression => "an expression"
  | closingParen => "`)`"
  | commaOrClosingParen => "`,` or `)`"

def Literal.Flaw.text : Literal.Flaw → String
  | missingDigits => "missing digits after radix prefix"
  | foreignDigit .binary => "binary literals only contain 0 and 1"
  | foreignDigit _ => "invalid hexadecimal digit"
  | misplacedSeparator => "digit separators must sit between two digits"
  | tooLarge => "does not fit in 64 bits"

def quoted (s : String) : String := "`" ++ s ++ "`"

def decimalText (n : Nat) : String := String.ofList (Layout.natText n)

namespace LexicalFault

def message : LexicalFault → String
  | strayCharacter c _ => "unexpected character " ++ quoted (String.singleton c)
  | flawedLiteral .tooLarge slice _ =>
    "numeric literal " ++ quoted (String.ofList slice) ++ " " ++ Literal.Flaw.tooLarge.text
  | flawedLiteral flaw slice _ =>
    "malformed numeric literal " ++ quoted (String.ofList slice) ++ ": " ++ flaw.text

def code : LexicalFault → String
  | strayCharacter .. => "unexpected_character"
  | flawedLiteral .tooLarge _ _ => "number_too_large"
  | flawedLiteral .. => "malformed_number"

def label : LexicalFault → String
  | strayCharacter .. => "this input character"
  | flawedLiteral .. => "this numeric literal"

end LexicalFault

namespace SyntacticFault

def message : SyntacticFault → String
  | unexpectedToken found expected _ =>
    "unexpected token " ++ quoted found ++ ", expected " ++ expected.text
  | unexpectedEnd expected _ => "unexpected end of input, expected " ++ expected.text
  | unclosedParen _ => "unclosed parenthesis"
  | trailingInput found _ => "unexpected trailing input " ++ quoted found
  | unknownName name _ => "unknown identifier " ++ quoted name
  | constantCalled name _ => quoted name ++ " is a constant, not a function"
  | functionNotCalled name _ => "function " ++ quoted name ++ " must be called with arguments"
  | arityMismatch name arity given _ =>
    "function " ++ quoted name ++ " takes " ++ decimalText arity ++ " argument(s) but " ++
      decimalText given ++ " were given"
  | tooDeep limit _ => "expression is nested more than " ++ decimalText limit ++ " levels deep"
  | tooLong length limit =>
    "expression is " ++ decimalText length ++ " bytes long, the limit is " ++ decimalText limit

def code : SyntacticFault → String
  | unexpectedToken .. => "unexpected_token"
  | unexpectedEnd .. => "unexpected_eof"
  | unclosedParen .. => "unclosed_paren"
  | trailingInput .. => "trailing_input"
  | unknownName .. => "unknown_identifier"
  | constantCalled .. => "not_a_function"
  | functionNotCalled .. => "missing_call"
  | arityMismatch .. => "arity_mismatch"
  | tooDeep .. => "too_deep"
  | tooLong .. => "too_long"

def span? : SyntacticFault → Option Text.Span
  | unexpectedToken _ _ span => some span
  | unexpectedEnd _ span => some span
  | unclosedParen span => some span
  | trailingInput _ span => some span
  | unknownName _ span => some span
  | constantCalled _ span => some span
  | functionNotCalled _ span => some span
  | arityMismatch _ _ _ span => some span
  | tooDeep _ span => some span
  | tooLong .. => none

def label? : SyntacticFault → Option String
  | unexpectedToken .. => some "here"
  | unexpectedEnd .. => some "input ends here"
  | unclosedParen .. => some "this parenthesis is never closed"
  | trailingInput .. => some "expected end of input"
  | unknownName .. => some "not a constant or function"
  | constantCalled .. => some "cannot be called"
  | functionNotCalled .. => some "missing `(...)`"
  | arityMismatch .. => some "this call"
  | tooDeep .. => some "limit reached here"
  | tooLong .. => none

def shift (d : Nat) : SyntacticFault → SyntacticFault
  | unexpectedToken found expected span => .unexpectedToken found expected (span.shift d)
  | unexpectedEnd expected span => .unexpectedEnd expected (span.shift d)
  | unclosedParen span => .unclosedParen (span.shift d)
  | trailingInput found span => .trailingInput found (span.shift d)
  | unknownName name span => .unknownName name (span.shift d)
  | constantCalled name span => .constantCalled name (span.shift d)
  | functionNotCalled name span => .functionNotCalled name (span.shift d)
  | arityMismatch name arity given span => .arityMismatch name arity given (span.shift d)
  | tooDeep limit span => .tooDeep limit (span.shift d)
  | tooLong length limit => .tooLong length limit

end SyntacticFault

namespace DomainFault

def message : DomainFault → String
  | factorial operand _ =>
    "factorial is only defined for non-negative integers, got " ++ Layout.plain.text operand

def code : DomainFault → String
  | factorial .. => "factorial"

def span : DomainFault → Text.Span
  | factorial _ span => span

def label : DomainFault → String
  | factorial .. => "this factorial"

def shift (d : Nat) : DomainFault → DomainFault
  | factorial operand span => .factorial operand (span.shift d)

end DomainFault

namespace Fault

inductive Kind where
  | lexical
  | syntactic
  | arity
  | domain
deriving DecidableEq, Repr

def Kind.text : Kind → String
  | lexical => "lex error"
  | syntactic => "syntax error"
  | arity => "arity error"
  | domain => "domain error"

def kind : Fault → Kind
  | lexical _ => .lexical
  | syntactic (.arityMismatch ..) => .arity
  | syntactic _ => .syntactic
  | domain _ => .domain

def isSyntactic : Fault → Bool
  | syntactic _ => true
  | _ => false

def message : Fault → String
  | lexical f => f.message
  | syntactic f => f.message
  | domain f => f.message

def code : Fault → String
  | lexical f => "inline_calc::lex::" ++ f.code
  | syntactic f => "inline_calc::syntax::" ++ f.code
  | domain f => "inline_calc::domain::" ++ f.code

def span? : Fault → Option Text.Span
  | lexical f => some f.span
  | syntactic f => f.span?
  | domain f => some f.span

def label? : Fault → Option String
  | lexical f => some f.label
  | syntactic f => f.label?
  | domain f => some f.label

def shift (d : Nat) : Fault → Fault
  | lexical f => .lexical (f.shift d)
  | syntactic f => .syntactic (f.shift d)
  | domain f => .domain (f.shift d)

end Fault

end Formula
