namespace Formula.Text

def width (s : List Char) : Nat :=
  s.foldr (fun c n => c.utf8Size + n) 0

@[simp] theorem width_nil : width [] = 0 := rfl

@[simp] theorem width_cons (c : Char) (s : List Char) : width (c :: s) = c.utf8Size + width s := rfl

@[simp] theorem width_append (s t : List Char) : width (s ++ t) = width s + width t := by
  induction s with
  | nil => rw [List.nil_append, width_nil, Nat.zero_add]
  | cons c s ih => rw [List.cons_append, width_cons, width_cons, ih, Nat.add_assoc]

structure Span where
  offset : Nat
  length : Nat
deriving DecidableEq, Repr

namespace Span

def stop (s : Span) : Nat := s.offset + s.length

def shift (d : Nat) (s : Span) : Span := ⟨s.offset + d, s.length⟩

def upTo (s t : Span) : Span := ⟨s.offset, t.stop - s.offset⟩

@[simp] theorem shift_upTo (d : Nat) (s t : Span) : (s.upTo t).shift d = (s.shift d).upTo (t.shift d) := by
  simp only [shift, upTo, stop, mk.injEq, true_and]
  omega

end Span

def blankRanges : List (Nat × Nat) :=
  [(0x09, 0x0D), (0x20, 0x20), (0x85, 0x85), (0xA0, 0xA0), (0x1680, 0x1680), (0x2000, 0x200A),
    (0x2028, 0x2029), (0x202F, 0x202F), (0x205F, 0x205F), (0x3000, 0x3000)]

def isBlank (c : Char) : Bool :=
  blankRanges.any fun r => r.1 ≤ c.toNat && c.toNat ≤ r.2

def trim (s : List Char) : List Char :=
  ((s.dropWhile isBlank).reverse.dropWhile isBlank).reverse

def beginsName (c : Char) : Bool := c.isAlpha

def continuesName (c : Char) : Bool := c.isAlphanum || c == '_'

def lines : List Char → List (List Char)
  | [] => []
  | c :: rest =>
    if c = '\n' then [] :: lines rest
    else
      match lines rest with
      | [] => [[c]]
      | line :: more => (c :: line) :: more

end Formula.Text
