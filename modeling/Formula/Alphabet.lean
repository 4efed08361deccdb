import Formula.Builtin
import Formula.Text
import Formula.Token.Scan

/-!
A quick look at the characters of a text: whether it is made of blanks, operator characters, runs that
have the shape of numbers, and known names. What can be parsed passes, and much else does too.
-/

namespace Formula.Alphabet

def operatorCharacters : List Char :=
  ['+', '-', '*', '/', '%', '^', '!', '(', ')', ',', '|', '&', '~', '<', '>', '=']

def standsAlone (c : Char) : Bool :=
  Text.isBlank c || operatorCharacters.contains c || Lexeme.isLetterName c

def beginsNumber (c : Char) : Bool := c.isDigit || c == '.'

def continuesNumber (c : Char) : Bool := Text.continuesName c || c == '.'

def isKnownName (s : List Char) : Bool := (Binding.ofName? (String.ofList s)).isSome

theorem length_dropWhile_lt (p : Char → Bool) (c : Char) (rest : List Char) :
    (rest.dropWhile p).length < (c :: rest).length :=
  Nat.lt_succ_of_le (List.dropWhile_sublist p).length_le

def covers : List Char → Bool
  | [] => true
  | c :: rest =>
    if standsAlone c then covers rest
    else if beginsNumber c then covers (rest.dropWhile continuesNumber)
    else if Text.beginsName c then
      isKnownName (c :: rest.takeWhile Text.continuesName) &&
        covers (rest.dropWhile Text.continuesName)
    else false
termination_by s => s.length
decreasing_by
  · simp
  · exact length_dropWhile_lt ..
  · exact length_dropWhile_lt ..

end Formula.Alphabet

namespace Formula

def looksValid (text : String) : Bool :=
  Alphabet.covers text.toList && !text.toList.all Text.isBlank

end Formula
