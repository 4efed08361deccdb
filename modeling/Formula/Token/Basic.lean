import Formula.Decimal
import Formula.Literal
import Formula.Symbol
import Formula.Text

namespace Formula

namespace Token

inductive Kind where
  | number (value : Float)
  | name
  | symbol (s : Symbol)

def Kind.label : Kind → String
  | .number value => "Number(" ++ Layout.listing.text value ++ ")"
  | .name => "Ident"
  | .symbol s => s.label

end Token

structure Token where
  kind : Token.Kind
  slice : List Char
  offset : Nat

namespace Token

def text (t : Token) : String := String.ofList t.slice

def span (t : Token) : Text.Span := ⟨t.offset, Text.width t.slice⟩

def shift (d : Nat) (t : Token) : Token := { t with offset := t.offset + d }

def isSymbol (s : Symbol) (t : Token) : Bool :=
  match t.kind with
  | .symbol found => found == s
  | _ => false

end Token

inductive LexicalFault where
  | strayCharacter (c : Char) (span : Text.Span)
  | flawedLiteral (flaw : Literal.Flaw) (slice : List Char) (span : Text.Span)
deriving DecidableEq, Repr

namespace LexicalFault

def span : LexicalFault → Text.Span
  | strayCharacter _ span => span
  | flawedLiteral _ _ span => span

def shift (d : Nat) : LexicalFault → LexicalFault
  | strayCharacter c span => .strayCharacter c (span.shift d)
  | flawedLiteral flaw slice span => .flawedLiteral flaw slice (span.shift d)

end LexicalFault

abbrev Item := Except LexicalFault Token

namespace Item

def span : Item → Text.Span
  | .ok t => t.span
  | .error f => f.span

def shift (d : Nat) : Item → Item
  | .ok t => .ok (t.shift d)
  | .error f => .error (f.shift d)

end Item

end Formula
