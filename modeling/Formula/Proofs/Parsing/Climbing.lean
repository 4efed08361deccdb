import Formula.Proofs.Parsing.Actions

namespace Formula.Parse

variable {power : Nat} {rest : List Item} {below : Below} {p q : Phrase} {t : Token} {n : Nat}

theorem climb_of_stops (h : Stops power rest) : climb below power p rest = ⟨.ok p, 0⟩ := by
  rw [climb.eq_def]
  rcases rest with _ | ⟨f | t, us⟩
  · rfl
  · exact h.elim
  · rcases hs : Suffix.ofToken? t with _ | s
    · simp only [hs]
    · simp only [hs, h s hs, if_true]

theorem climb_bang (hk : t.kind = .symbol .bang) (hp : power ≤ postfixPower) :
    climb below power p (.ok t :: rest) = (climb below power (.factorial p t.span) rest).after 1 := by
  rw [climb]
  have hs : Suffix.ofToken? t = some .factorial := ofToken?_of_kind hk
  simp only [hs, Suffix.power, Nat.not_lt.mpr hp, if_false]

section

variable {s : Symbol} {op : BinaryOp} (hk : t.kind = .symbol s)
  (hs : Suffix.ofSymbol? s = some (.binary op)) (hp : power ≤ op.leftPower)

include hk hs hp

theorem climb_binary (hq : below op.rightPower rest = ⟨.ok q, n⟩) :
    climb below power p (.ok t :: rest) =
      (climb below power (.binary op p q) (rest.drop n)).after (1 + n) := by
  rw [climb]
  simp only [ofToken?_of_kind hk, hs, Suffix.power, Nat.not_lt.mpr hp, if_false, hq]

theorem climb_binary_error {f : Fault} (hq : below op.rightPower rest = ⟨.error f, n⟩) :
    climb below power p (.ok t :: rest) = ⟨.error f, 1 + n⟩ := by
  rw [climb]
  simp only [ofToken?_of_kind hk, hs, Suffix.power, Nat.not_lt.mpr hp, if_false, hq]

end

def afterRight (below : Below) (power : Nat) (op : BinaryOp) (left right : Phrase) : Parse Phrase :=
  climb below power (.binary op left right)

theorem climb_binary_bind {s : Symbol} {op : BinaryOp} (hk : t.kind = .symbol s)
    (hs : Suffix.ofSymbol? s = some (.binary op)) (hp : power ≤ op.leftPower) :
    climb below power p (.ok t :: rest) =
      ((below op.rightPower >>= afterRight below power op p) rest).after 1 := by
  rcases hq : below op.rightPower rest with ⟨f | q, n⟩
  · rw [climb_binary_error hk hs hp hq, bind_of_error hq, Parsed.after_mk]
  · rw [climb_binary hk hs hp hq, bind_of_ok hq, Parsed.after_after]
    rfl

def climbOnce (below : Below) (power : Nat) (left : Phrase) : Parse Phrase := do
  match ← peek with
  | none => return left
  | some t =>
    match Suffix.ofToken? t with
    | none => return left
    | some suffix =>
      if suffix.power < power then return left
      else
        let _ ← next
        match suffix with
        | .factorial => climb below power (.factorial left t.span)
        | .binary op => below op.rightPower >>= afterRight below power op left

theorem climb_eq (below : Below) (power : Nat) (left : Phrase) :
    climb below power left = climbOnce below power left := by
  funext items
  rcases items with _ | ⟨f | t, rest⟩
  · rw [climb]
    rfl
  · rw [climb]
    rfl
  · rw [climb, climbOnce, bind_of_ok (peek_cons t rest), List.drop_zero, Parsed.after_zero]
    simp only
    cases Suffix.ofToken? t with
    | none => rfl
    | some suffix =>
      by_cases hlt : suffix.power < power
      · simp only [hlt, if_true]
        rfl
      · simp only [hlt, if_false]
        rw [bind_of_ok (next_cons t rest)]
        cases suffix with
        | factorial => rfl
        | binary op =>
          simp only [List.drop_one, List.tail_cons]
          rcases hq : below op.rightPower rest with ⟨f | right, n⟩
          · rw [bind_of_error hq]
            rfl
          · rw [bind_of_ok hq, Parsed.after_after]
            rfl

variable {limit levels : Nat} {atEnd : Text.Span} {all : List Item}

theorem phrase_of_operand (h : operand atEnd (phrase limit atEnd levels) all = ⟨.ok p, n⟩) :
    phrase limit atEnd (levels + 1) power all =
      (climb (phrase limit atEnd levels) power p (all.drop n)).after n := by
  rw [phrase]
  exact bind_of_ok h

theorem phrase_of_operand_error {f : Fault}
    (h : operand atEnd (phrase limit atEnd levels) all = ⟨.error f, n⟩) :
    phrase limit atEnd (levels + 1) power all = ⟨.error f, n⟩ := by
  rw [phrase]
  exact bind_of_error h

end Formula.Parse
