import Formula.Parser.Parse

/-!
The layers of the grammar, from comparisons down to primaries, and the binding powers that belong to
them. Every suffix inside a phrase of a layer, outside of all brackets, has at least the power `floor`;
where a phrase of the layer ends, the power of the next suffix is below `ceiling`.
-/

namespace Formula

inductive Layer where
  | comparison
  | disjunction
  | conjunction
  | shift
  | sum
  | product
  | power
  | signed
  | postfixed
  | primary
deriving DecidableEq, Repr

namespace Layer

def tighter? : Layer → Option Layer
  | comparison => some disjunction
  | disjunction => some conjunction
  | conjunction => some shift
  | shift => some sum
  | sum => some product
  | product => some power
  | power => some signed
  | signed => some postfixed
  | postfixed => some primary
  | primary => none

def operators : Layer → List (Symbol × BinaryOp)
  | comparison =>
    [(.less, .less), (.lessEqual, .lessEqual), (.greater, .greater), (.greaterEqual, .greaterEqual),
      (.equalEqual, .equal), (.bangEqual, .notEqual)]
  | disjunction => [(.pipe, .or)]
  | conjunction => [(.ampersand, .and)]
  | shift => [(.shiftLeft, .shiftLeft), (.shiftRight, .shiftRight)]
  | sum => [(.plus, .add), (.minus, .subtract)]
  | product => [(.star, .multiply), (.slash, .divide), (.percent, .remainder)]
  | _ => []

def signs : List (Symbol × PrefixOp) := [(.minus, .negate), (.plus, .keep), (.tilde, .complement)]

def floor : Layer → Nat
  | comparison => 1
  | disjunction => 3
  | conjunction => 5
  | shift => 7
  | sum => 9
  | product => 11
  | power => 14
  | signed => 16
  | postfixed => 17
  | primary => 18

def ceiling : Layer → Nat
  | comparison => 2
  | disjunction => 4
  | conjunction => 6
  | shift => 8
  | sum => 10
  | product => 12
  | power => 13
  | signed => 15
  | postfixed => 18
  | primary => 18

def ofOperator : BinaryOp → Layer
  | .less | .lessEqual | .greater | .greaterEqual | .equal | .notEqual => comparison
  | .or => disjunction
  | .and => conjunction
  | .shiftLeft | .shiftRight => shift
  | .add | .subtract => sum
  | .multiply | .divide | .remainder => product
  | .power => power

theorem leftPower_eq (op : BinaryOp) : op.leftPower = (ofOperator op).floor := by
  cases op <;> rfl

theorem rightPower_eq (op : BinaryOp) : op.rightPower = (ofOperator op).ceiling := by
  cases op <;> rfl

theorem rightPower_le (op : BinaryOp) : op.rightPower ≤ signed.floor := by
  cases op <;> decide

theorem not_paren_of_suffix {s : Symbol} {x : Suffix} (h : Suffix.ofSymbol? s = some x) :
    s ≠ .leftParen ∧ s ≠ .rightParen := by
  constructor <;> rintro rfl <;> cases h

theorem mem_operators {l : Layer} {s : Symbol} {op : BinaryOp} (h : (s, op) ∈ l.operators) :
    ofOperator op = l ∧ Suffix.ofSymbol? s = some (.binary op) := by
  have all : ∀ x ∈ l.operators, ofOperator x.2 = l ∧ Suffix.ofSymbol? x.1 = some (.binary x.2) := by
    cases l <;> decide
  exact all _ h

theorem mem_signs {s : Symbol} {op : PrefixOp} (h : (s, op) ∈ signs) :
    PrefixOp.ofSymbol? s = some op ∧ s ≠ .leftParen ∧ s ≠ .rightParen := by
  have all : ∀ x ∈ signs,
      PrefixOp.ofSymbol? x.1 = some x.2 ∧ x.1 ≠ .leftParen ∧ x.1 ≠ .rightParen := by
    decide
  exact all _ h

theorem mem_operators_of_suffix {s : Symbol} {op : BinaryOp} (h : Suffix.ofSymbol? s = some (.binary op)) :
    (s = .caret ∧ op = .power) ∨ (s, op) ∈ (ofOperator op).operators := by
  revert h
  cases s <;> cases op <;> decide

theorem mem_signs_of_prefixOp {s : Symbol} {op : PrefixOp} (h : PrefixOp.ofSymbol? s = some op) :
    (s, op) ∈ signs := by
  revert h
  cases s <;> cases op <;> decide

section

variable {l k m : Layer} (hk : l.tighter? = some k)

include hk

theorem floor_lt_tighter : l.floor < k.floor := by
  cases l <;> cases hk <;> decide

theorem ceiling_le_tighter : l.ceiling ≤ k.ceiling := by
  cases l <;> cases hk <;> decide

theorem operator_between {s : Symbol} {op : BinaryOp} (h : (s, op) ∈ l.operators) :
    l.floor < l.ceiling ∧ l.ceiling ≤ k.floor := by
  cases l <;> cases hk <;> first | decide | cases h

theorem tighter_floor_le (h : l.floor < m.floor) : k.floor ≤ m.floor := by
  revert h
  cases l <;> cases hk <;> cases m <;> decide

end

section

variable {l m : Layer}

theorem comparison_floor_le : comparison.floor ≤ m.floor := by
  cases m <;> decide

theorem exists_tighter_of_operator {s : Symbol} {op : BinaryOp} (h : (s, op) ∈ l.operators) :
    ∃ k, l.tighter? = some k := by
  cases l with
  | primary => cases h
  | _ => exact ⟨_, rfl⟩

theorem floor_le_of_lt_ceiling {s : Symbol} {op : BinaryOp} (h : (s, op) ∈ l.operators)
    (hc : l.floor < m.ceiling) : l.floor ≤ m.floor := by
  revert hc
  cases l <;> first | cases h; done | (cases m <;> decide)

theorem tighter_floor_le_of_ceiling {k : Layer} {s : Symbol} {op : BinaryOp}
    (h : (s, op) ∈ l.operators) (hk : l.tighter? = some k) (hc : l.ceiling ≤ m.floor) :
    k.floor ≤ m.floor := by
  revert hc
  cases l <;> cases hk <;> first | cases h; done | (cases m <;> decide)

theorem signed_floor_le_of_power (h : power.floor < m.ceiling) : signed.floor ≤ m.floor := by
  revert h
  cases m <;> decide

theorem power_floor_le_of_ceiling (h : power.ceiling ≤ m.floor) : power.floor ≤ m.floor := by
  revert h
  cases m <;> decide

theorem signed_floor_le_of_ceiling (h : signed.ceiling ≤ m.floor) : signed.floor ≤ m.floor := by
  revert h
  cases m <;> decide

theorem postfixed_floor_le (h : postfixed.floor < m.ceiling) : postfixed.floor ≤ m.floor := by
  revert h
  cases m <;> decide

end

theorem floor_injective {l m : Layer} (h : l.floor = m.floor) : l = m := by
  revert h
  cases l <;> cases m <;> decide

theorem exists_tighter {l m : Layer} (h : l.floor < m.floor) : ∃ k, l.tighter? = some k := by
  apply Option.isSome_iff_exists.mp
  revert h
  cases l <;> cases m <;> decide

end Layer

end Formula
