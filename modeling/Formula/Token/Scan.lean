import Formula.Literal
import Formula.Text
import Formula.Token.Basic

/-!
A text cut into tokens: at each place the longest piece is taken, and blanks between pieces are skipped.
-/

namespace Formula

inductive Lexeme where
  | token (kind : Token.Kind) (slice : List Char)
  | flawedLiteral (flaw : Literal.Flaw) (slice : List Char)
  | strayCharacter (c : Char)

namespace Lexeme

def slice : Lexeme → List Char
  | token _ slice => slice
  | flawedLiteral _ slice => slice
  | strayCharacter c => [c]

def ofLiteral (l : Literal) : Lexeme :=
  match l.value with
  | .ok value => .token (.number value) l.text
  | .error flaw => .flawedLiteral flaw l.text

def isLetterName (c : Char) : Bool := c == 'π'

def scan (c : Char) (rest : List Char) : Lexeme :=
  if Literal.beginsAt (c :: rest) then ofLiteral (Literal.scan (c :: rest))
  else if Text.beginsName c then .token .name (c :: rest.takeWhile Text.continuesName)
  else if isLetterName c then .token .name [c]
  else
    match Symbol.scan? (c :: rest) with
    | some s => .token (.symbol s) s.spelling
    | none => .strayCharacter c

def locate (offset : Nat) : Lexeme → Item
  | token kind slice => .ok ⟨kind, slice, offset⟩
  | flawedLiteral flaw slice => .error (.flawedLiteral flaw slice ⟨offset, Text.width slice⟩)
  | strayCharacter c => .error (.strayCharacter c ⟨offset, c.utf8Size⟩)

end Lexeme

namespace Item

/-- The items of a text that stands behind `offset` bytes, where its first `taken` characters belong to
an item before it. -/
def scanFrom (offset taken : Nat) : List Char → List Item
  | [] => []
  | c :: rest =>
    match taken with
    | more + 1 => scanFrom (offset + c.utf8Size) more rest
    | 0 =>
      if Text.isBlank c then scanFrom (offset + c.utf8Size) 0 rest
      else
        let lexeme := Lexeme.scan c rest
        lexeme.locate offset :: scanFrom (offset + c.utf8Size) (lexeme.slice.length - 1) rest

def scan (s : List Char) : List Item := scanFrom 0 0 s

end Item

end Formula
