import Formula.Parser.Parse

namespace Formula

def Token.items (ts : List Token) : List Item := ts.map .ok

namespace Token

@[simp] theorem items_nil : items [] = [] := rfl

@[simp] theorem items_cons (t : Token) (ts : List Token) : items (t :: ts) = .ok t :: items ts := rfl

@[simp] theorem items_append (ts us : List Token) : items (ts ++ us) = items ts ++ items us := by
  simp [items]

@[simp] theorem length_items (ts : List Token) : (items ts).length = ts.length := by
  simp [items]

theorem items_cons_append (t : Token) (ts : List Token) (tail : List Item) :
    items (t :: ts) ++ tail = .ok t :: (items ts ++ tail) := rfl

theorem items_append_cons (ts : List Token) (t : Token) (us : List Token) (tail : List Item) :
    items (ts ++ t :: us) ++ tail = items ts ++ .ok t :: (items us ++ tail) := by
  rw [items_append, items_cons, List.append_assoc, List.cons_append]

theorem items_snoc (ts : List Token) (t : Token) (tail : List Item) :
    items (ts ++ [t]) ++ tail = items ts ++ .ok t :: tail :=
  items_append_cons ts t [] tail

theorem drop_items (ts : List Token) (tail : List Item) : (items ts ++ tail).drop ts.length = tail := by
  rw [← length_items, List.drop_left]

end Token

namespace Parse

/-- No suffix of the given power or a greater one comes first, and no piece that is no token. -/
def Stops (power : Nat) : List Item → Prop
  | [] => True
  | .error _ :: _ => False
  | .ok t :: _ => ∀ s, Suffix.ofToken? t = some s → s.power < power

def Ends (power : Nat) : List Item → Prop
  | [] => True
  | .error _ :: _ => False
  | .ok t :: _ => t.kind ≠ .symbol .leftParen ∧ ∀ s, Suffix.ofToken? t = some s → s.power < power

variable {power power' : Nat} {rest : List Item}

theorem Ends.stops (h : Ends power rest) : Stops power rest := by
  rcases rest with _ | ⟨f | t, us⟩
  · exact trivial
  · exact h
  · exact h.2

theorem Ends.mono (h : Ends power rest) (hp : power ≤ power') : Ends power' rest := by
  rcases rest with _ | ⟨f | t, us⟩
  · exact trivial
  · exact h
  · exact ⟨h.1, fun s hs => Nat.lt_of_lt_of_le (h.2 s hs) hp⟩

theorem ofToken?_of_kind {t : Token} {s : Symbol} (h : t.kind = .symbol s) :
    Suffix.ofToken? t = Suffix.ofSymbol? s := by
  simp only [Suffix.ofToken?, h]

theorem ends_of_symbol {t : Token} {s : Symbol} (h : t.kind = .symbol s) (hp : s ≠ .leftParen)
    (hs : Suffix.ofSymbol? s = none) : Ends power (.ok t :: rest) := by
  refine ⟨by simp [h, hp], fun x hx => ?_⟩
  rw [ofToken?_of_kind h, hs] at hx
  cases hx

theorem ends_of_suffix {t : Token} {s : Symbol} {x : Suffix} (h : t.kind = .symbol s)
    (hs : Suffix.ofSymbol? s = some x) (hx : x.power < power) : Ends power (.ok t :: rest) := by
  refine ⟨?_, fun y hy => ?_⟩
  · rw [h]
    rintro ⟨⟩
    cases hs
  · rw [ofToken?_of_kind h, hs] at hy
    exact Option.some.inj hy ▸ hx

end Parse

end Formula
