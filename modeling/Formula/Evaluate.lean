import Formula.Expr.Eval
import Formula.Parser.Phrase
import Formula.Token.Scan

namespace Formula

structure Limits where
  maxLength : Nat := 4096
  maxDepth : Nat := 64
deriving DecidableEq, Repr

structure Parser where
  limits : Limits
  length : Nat
  unread : List Item

namespace Parser

def ofText (limits : Limits) (s : List Char) : Parser := ⟨limits, Text.width s, Item.scan s⟩

def atEnd (p : Parser) : Text.Span := ⟨p.length, 0⟩

def parse (p : Parser) : Except Fault Expr × Parser :=
  if p.limits.maxLength < p.length then
    (.error (.syntactic (.tooLong p.length p.limits.maxLength)), p)
  else
    let r := Parse.whole p.limits.maxDepth p.atEnd p.unread
    (r.result.map Phrase.expr, { p with unread := p.unread.drop r.used })

theorem parse_of_too_long {p : Parser} (h : p.limits.maxLength < p.length) :
    p.parse = (.error (.syntactic (.tooLong p.length p.limits.maxLength)), p) :=
  if_pos h

theorem parse_of_fits {p : Parser} (h : p.length ≤ p.limits.maxLength) :
    p.parse = ((Parse.whole p.limits.maxDepth p.atEnd p.unread).result.map Phrase.expr,
      { p with unread := p.unread.drop (Parse.whole p.limits.maxDepth p.atEnd p.unread).used }) :=
  if_neg (Nat.not_lt.mpr h)

def parseTimes (p : Parser) : Nat → List (Except Fault Expr)
  | 0 => []
  | n + 1 => p.parse.1 :: p.parse.2.parseTimes n

end Parser

def tokenize (text : String) : List Item := Item.scan text.toList

def parse (limits : Limits) (text : String) : Except Fault Expr :=
  (Parser.ofText limits text.toList).parse.1

def evaluate (limits : Limits) (text : String) : Except Fault Float := do
  (← parse limits text).eval

end Formula
