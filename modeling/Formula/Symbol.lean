namespace Formula

inductive Symbol where
  | leftParen
  | rightParen
  | comma
  | plus
  | minus
  | star
  | slash
  | percent
  | caret
  | bang
  | pipe
  | ampersand
  | tilde
  | shiftLeft
  | shiftRight
  | less
  | lessEqual
  | greater
  | greaterEqual
  | equalEqual
  | bangEqual
deriving DecidableEq, Repr

namespace Symbol

def all : List Symbol :=
  [leftParen, rightParen, comma, plus, minus, star, slash, percent, caret, bang, pipe, ampersand, tilde,
    shiftLeft, shiftRight, less, lessEqual, greater, greaterEqual, equalEqual, bangEqual]

def spelling : Symbol → List Char
  | leftParen => ['(']
  | rightParen => [')']
  | comma => [',']
  | plus => ['+']
  | minus => ['-']
  | star => ['*']
  | slash => ['/']
  | percent => ['%']
  | caret => ['^']
  | bang => ['!']
  | pipe => ['|']
  | ampersand => ['&']
  | tilde => ['~']
  | shiftLeft => ['<', '<']
  | shiftRight => ['>', '>']
  | less => ['<']
  | lessEqual => ['<', '=']
  | greater => ['>']
  | greaterEqual => ['>', '=']
  | equalEqual => ['=', '=']
  | bangEqual => ['!', '=']

def ofSpelling? (s : List Char) : Option Symbol :=
  all.find? (·.spelling == s)

theorem ofSpelling?_eq_some_iff {s : List Char} {x : Symbol} :
    ofSpelling? s = some x ↔ x.spelling = s := by
  constructor
  · intro h
    simpa using List.find?_some h
  · rintro rfl
    cases x <;> decide

def scan? (s : List Char) : Option Symbol :=
  (ofSpelling? (s.take 2)).or (ofSpelling? (s.take 1))

def label : Symbol → String
  | leftParen => "LeftParen"
  | rightParen => "RightParen"
  | comma => "Comma"
  | plus => "Plus"
  | minus => "Minus"
  | star => "Star"
  | slash => "Slash"
  | percent => "Percent"
  | caret => "Caret"
  | bang => "Bang"
  | pipe => "Pipe"
  | ampersand => "Ampersand"
  | tilde => "Tilde"
  | shiftLeft => "ShiftLeft"
  | shiftRight => "ShiftRight"
  | less => "Less"
  | lessEqual => "LessEqual"
  | greater => "Greater"
  | greaterEqual => "GreaterEqual"
  | equalEqual => "EqualEqual"
  | bangEqual => "BangEqual"

end Symbol

end Formula
