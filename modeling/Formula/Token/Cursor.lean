import Formula.Token.Scan

namespace Formula

structure Cursor where
  rest : List Char
  offset : Nat
  /-- An item that has been looked at; the rest begins behind it. -/
  ahead : Option Item

namespace Cursor

def ofText (s : List Char) : Cursor := ⟨s, 0, none⟩

def unread (k : Cursor) : List Item := k.ahead.toList ++ Item.scanFrom k.offset 0 k.rest

def read (offset : Nat) : List Char → Option Item × Cursor
  | [] => (none, ⟨[], offset, none⟩)
  | c :: rest =>
    if Text.isBlank c then read (offset + c.utf8Size) rest
    else
      let lexeme := Lexeme.scan c rest
      (some (lexeme.locate offset),
        ⟨(c :: rest).drop lexeme.slice.length, offset + Text.width lexeme.slice, none⟩)

def next (k : Cursor) : Option Item × Cursor :=
  match k.ahead with
  | some item => (some item, { k with ahead := none })
  | none => read k.offset k.rest

def peek (k : Cursor) : Option Item × Cursor :=
  match k.next with
  | (some item, behind) => (some item, { behind with ahead := some item })
  | (none, behind) => (none, behind)

inductive Step where
  | next
  | peek
deriving DecidableEq, Repr

def step (k : Cursor) : Step → Option Item × Cursor
  | .next => k.next
  | .peek => k.peek

def run (k : Cursor) : List Step → List (Option Item)
  | [] => []
  | s :: steps => (k.step s).1 :: (k.step s).2.run steps

end Cursor

end Formula
