import Formula.Parser.Phrase
import Formula.Proofs.Parsing.Ends

namespace Formula

def Fault.TooDeep (limit : Nat) (f : Fault) : Prop :=
  ∃ span, f = .syntactic (.tooDeep limit span)

namespace Parsed

@[simp] theorem after_zero {α : Type} (r : Parsed α) : r.after 0 = r := by
  simp [after]

@[simp] theorem after_after {α : Type} (m n : Nat) (r : Parsed α) :
    (r.after n).after m = r.after (m + n) := by
  simp [after, Nat.add_assoc]

@[simp] theorem after_mk {α : Type} (n used : Nat) (result : Except Fault α) :
    (Parsed.mk result used).after n = ⟨result, n + used⟩ := rfl

theorem of_after_eq {α : Type} {r : Parsed α} {result : Except Fault α} {n used : Nat}
    (h : r.after n = ⟨result, used⟩) : ∃ k, r = ⟨result, k⟩ ∧ used = n + k := by
  cases h
  exact ⟨r.used, rfl, rfl⟩

end Parsed

namespace Parse

variable {α β : Type} {p : Parse α} {k : α → Parse β} {items rest : List Item}

theorem bind_of_ok {x : α} {n : Nat} (h : p items = ⟨.ok x, n⟩) :
    (p >>= k) items = (k x (items.drop n)).after n := by
  change bind p k items = _
  rw [bind, h]

theorem bind_of_error {f : Fault} {n : Nat} (h : p items = ⟨.error f, n⟩) :
    (p >>= k) items = ⟨.error f, n⟩ := by
  change bind p k items = _
  rw [bind, h]

theorem pure_apply (x : α) : (Pure.pure x : Parse α) items = ⟨.ok x, 0⟩ := rfl

theorem fail_apply (f : Fault) : (fail f : Parse α) items = ⟨.error f, 0⟩ := rfl

theorem of_bind_ok {y : β} {n : Nat} (h : (p >>= k) items = ⟨.ok y, n⟩) :
    ∃ x a b, p items = ⟨.ok x, a⟩ ∧ k x (items.drop a) = ⟨.ok y, b⟩ ∧ n = a + b := by
  rcases hp : p items with ⟨f | x, a⟩
  · rw [bind_of_error hp] at h
    cases h
  · rw [bind_of_ok hp] at h
    obtain ⟨b, hk, rfl⟩ := Parsed.of_after_eq h
    exact ⟨x, a, b, rfl, hk, rfl⟩

theorem of_bind_error {f : Fault} {n : Nat} (h : (p >>= k) items = ⟨.error f, n⟩) :
    p items = ⟨.error f, n⟩ ∨
      ∃ x a b, p items = ⟨.ok x, a⟩ ∧ k x (items.drop a) = ⟨.error f, b⟩ ∧ n = a + b := by
  rcases hp : p items with ⟨g | x, a⟩
  · rw [bind_of_error hp] at h
    cases h
    exact .inl rfl
  · rw [bind_of_ok hp] at h
    obtain ⟨b, hk, rfl⟩ := Parsed.of_after_eq h
    exact .inr ⟨x, a, b, rfl, hk, rfl⟩

theorem next_cons (t : Token) (rest : List Item) : next (.ok t :: rest) = ⟨.ok (some t), 1⟩ := rfl

theorem peek_nil : peek [] = ⟨.ok none, 0⟩ := rfl

theorem peek_cons (t : Token) (rest : List Item) : peek (.ok t :: rest) = ⟨.ok (some t), 0⟩ := rfl

theorem of_peek_ok {ahead : Option Token} {n : Nat} (h : peek items = ⟨.ok ahead, n⟩) :
    n = 0 ∧ ∀ t, ahead = some t → ∃ rest, items = .ok t :: rest := by
  rcases items with _ | ⟨f | t, rest⟩
  · cases h
    exact ⟨rfl, nofun⟩
  · cases h
  · cases h
    exact ⟨rfl, fun u hu => ⟨rest, by rw [Option.some.inj hu]⟩⟩

theorem isSymbol_iff {t : Token} {s : Symbol} : t.isSymbol s = true ↔ t.kind = .symbol s := by
  unfold Token.isSymbol
  cases t.kind <;> simp

theorem isSymbol_of_kind {t : Token} {s s' : Symbol} (h : t.kind = .symbol s') :
    t.isSymbol s = (s' == s) := by
  simp only [Token.isSymbol, h]

def prepend (p : Phrase) (more : Parse (List Phrase × Text.Span)) : Parse (List Phrase × Text.Span) := do
  let (ps, close) ← more
  return (p :: ps, close)

theorem prepend_ok {more : Parse (List Phrase × Text.Span)} {p : Phrase} {ps : List Phrase}
    {close : Text.Span} {n : Nat} (h : more items = ⟨.ok (ps, close), n⟩) :
    prepend p more items = ⟨.ok (p :: ps, close), n⟩ :=
  bind_of_ok h

theorem prepend_error {more : Parse (List Phrase × Text.Span)} {p : Phrase} {f : Fault} {n : Nat}
    (h : more items = ⟨.error f, n⟩) : prepend p more items = ⟨.error f, n⟩ :=
  bind_of_error h

def afterArgument (below : Below) (paren : Token) (p : Phrase) : Parse (List Phrase × Text.Span) := do
  match ← next with
  | none => fail (.syntactic (.unclosedParen paren.span))
  | some t =>
    if t.isSymbol .comma then prepend p (moreArguments below paren)
    else if t.isSymbol .rightParen then return ([p], t.span)
    else unexpected t .commaOrClosingParen

variable {atEnd : Text.Span} {below : Below} {t : Token}

theorem operand_number {value : Float} (h : t.kind = .number value) :
    operand atEnd below (.ok t :: rest) = ⟨.ok (.number value), 1⟩ := by
  change (next >>= _) _ = _
  rw [bind_of_ok (next_cons t rest)]
  simp only [h]
  rfl

theorem operand_name (h : t.kind = .name) :
    operand atEnd below (.ok t :: rest) = (named below t rest).after 1 := by
  change (next >>= _) _ = _
  rw [bind_of_ok (next_cons t rest)]
  simp only [h]
  rfl

theorem operand_bracketed (h : t.kind = .symbol .leftParen) :
    operand atEnd below (.ok t :: rest) =
      ((below 0 >>= fun p => closing t >>= fun _ => Pure.pure (Phrase.bracketed p)) rest).after 1 := by
  change (next >>= _) _ = _
  rw [bind_of_ok (next_cons t rest)]
  simp only [h]
  rfl

theorem operand_prefixed {s : Symbol} {op : PrefixOp} (h : t.kind = .symbol s) (hp : s ≠ .leftParen)
    (hs : PrefixOp.ofSymbol? s = some op) :
    operand atEnd below (.ok t :: rest) =
      ((below prefixPower >>= fun p => Pure.pure (Phrase.prefixed op p)) rest).after 1 := by
  change (next >>= _) _ = _
  rw [bind_of_ok (next_cons t rest)]
  simp only [h, hs]
  rfl

theorem operand_unexpected {s : Symbol} (h : t.kind = .symbol s) (hp : s ≠ .leftParen)
    (hs : PrefixOp.ofSymbol? s = none) :
    operand atEnd below (.ok t :: rest) =
      ⟨.error (.syntactic (.unexpectedToken t.text .expression t.span)), 1⟩ := by
  change (next >>= _) _ = _
  rw [bind_of_ok (next_cons t rest)]
  simp only [h, hs]
  rfl

theorem closing_ok {paren close : Token} (h : close.kind = .symbol .rightParen) :
    closing paren (.ok close :: rest) = ⟨.ok (), 1⟩ := by
  change (next >>= _) _ = _
  rw [bind_of_ok (next_cons close rest)]
  simp only [isSymbol_of_kind h]
  rfl

theorem named_constant {value : Float} {power : Nat}
    (hb : Binding.ofName? t.text = some (.constant value)) (he : Ends power rest) :
    named below t rest = ⟨.ok (.constant t.text value), 0⟩ := by
  change (peek >>= _) _ = _
  rcases rest with _ | ⟨f | u, us⟩
  · rw [bind_of_ok peek_nil]
    simp only [hb]
    rfl
  · exact he.elim
  · have hu : u.isSymbol .leftParen = false := by
      rw [Bool.eq_false_iff]
      exact fun h => he.1 (isSymbol_iff.mp h)
    rw [bind_of_ok (peek_cons u us)]
    simp only [hb, Option.filter_some, hu]
    rfl

theorem operand_constant {value : Float} {power : Nat} (hk : t.kind = .name)
    (hb : Binding.ofName? t.text = some (.constant value)) (he : Ends power rest) :
    operand atEnd below (.ok t :: rest) = ⟨.ok (.constant t.text value), 1⟩ := by
  rw [operand_name hk, named_constant hb he]
  rfl

theorem named_function {f : Builtin} {paren : Token} (hb : Binding.ofName? t.text = some (.function f))
    (ho : paren.kind = .symbol .leftParen) :
    named below t (.ok paren :: rest) =
      ((arguments below paren >>= fun x =>
        if x.1.length = f.arity then Pure.pure (Phrase.call t.text f x.1 (t.span.upTo x.2))
        else fail (.syntactic (.arityMismatch t.text f.arity x.1.length (t.span.upTo x.2)))) rest).after
          1 := by
  change (peek >>= _) _ = _
  rw [bind_of_ok (peek_cons paren rest)]
  simp only [hb, Option.filter_some, isSymbol_of_kind ho]
  change (((next >>= _) _).after 0) = _
  rw [List.drop_zero, bind_of_ok (next_cons paren rest), Parsed.after_after]
  rfl

theorem arguments_close {paren close : Token} (hc : close.kind = .symbol .rightParen) :
    arguments below paren (.ok close :: rest) = ⟨.ok ([], close.span), 1⟩ := by
  change (peek >>= _) _ = _
  rw [bind_of_ok (peek_cons close rest)]
  simp only [Option.filter_some, isSymbol_of_kind hc]
  rfl

theorem arguments_more {paren : Token} (ht : t.kind ≠ .symbol .rightParen) :
    arguments below paren (.ok t :: rest) = moreArguments below paren (.ok t :: rest) := by
  have hs : t.isSymbol .rightParen = false := by
    rw [Bool.eq_false_iff]
    exact fun h => ht (isSymbol_iff.mp h)
  change (peek >>= _) _ = _
  rw [bind_of_ok (peek_cons t rest)]
  simp only [Option.filter_some, hs]
  exact Parsed.after_zero _

section

variable {paren : Token} {p : Phrase} {n : Nat}

theorem moreArguments_eq (below : Below) (paren : Token) (items : List Item) :
    moreArguments below paren items = (below 0 >>= afterArgument below paren) items := by
  rw [moreArguments]
  rcases hp : below 0 items with ⟨f | p, n⟩
  · rw [bind_of_error hp]
  · rw [bind_of_ok hp]
    simp only
    split <;> rename_i hd <;> rw [hd]
    · rfl
    · rfl
    · rename_i t rest
      change _ = ((next >>= _) _).after n
      rw [bind_of_ok (next_cons t rest)]
      simp only [List.drop_succ_cons, List.drop_zero, Parsed.after_after]
      by_cases hc : t.isSymbol .comma
      · simp only [hc, if_true]
        rcases hm : moreArguments below paren rest with ⟨g | ⟨ps, close⟩, m⟩
        · rw [prepend_error hm]
          rfl
        · rw [prepend_ok hm]
          rfl
      · by_cases hr : t.isSymbol .rightParen
        · simp only [hc, hr, if_true]
          rfl
        · simp only [hc, hr]
          rfl

theorem moreArguments_bind (below : Below) (paren : Token) :
    moreArguments below paren = (below 0 >>= afterArgument below paren) :=
  funext (moreArguments_eq below paren)

theorem moreArguments_of_error {f : Fault} (hp : below 0 items = ⟨.error f, n⟩) :
    moreArguments below paren items = ⟨.error f, n⟩ := by
  rw [moreArguments_eq, bind_of_error hp]

theorem moreArguments_last {close : Token} (hp : below 0 items = ⟨.ok p, n⟩)
    (hr : items.drop n = .ok close :: rest) (hc : close.kind = .symbol .rightParen) :
    moreArguments below paren items = ⟨.ok ([p], close.span), n + 1⟩ := by
  rw [moreArguments_eq, bind_of_ok hp, hr]
  change ((next >>= _) _).after n = _
  rw [bind_of_ok (next_cons close rest)]
  simp only [isSymbol_of_kind hc]
  rfl

theorem moreArguments_comma {comma : Token} (hp : below 0 items = ⟨.ok p, n⟩)
    (hr : items.drop n = .ok comma :: rest) (hk : comma.kind = .symbol .comma) :
    moreArguments below paren items =
      (prepend p (moreArguments below paren) rest).after (n + 1) := by
  rw [moreArguments_eq, bind_of_ok hp, hr]
  change ((next >>= _) _).after n = _
  rw [bind_of_ok (next_cons comma rest)]
  simp only [isSymbol_of_kind hk, Parsed.after_after]
  rfl

end

section

variable {p : Phrase} {f : Fault} {n : Nat}

theorem operand_bracketed_ok {close : Token} (ho : t.kind = .symbol .leftParen)
    (hp : below 0 items = ⟨.ok p, n⟩) (hr : items.drop n = .ok close :: rest)
    (hc : close.kind = .symbol .rightParen) :
    operand atEnd below (.ok t :: items) = ⟨.ok (.bracketed p), n + 2⟩ := by
  rw [operand_bracketed ho, bind_of_ok hp, hr, bind_of_ok (closing_ok hc)]
  simp only [pure_apply, Parsed.after_mk]
  congr 1
  omega

theorem operand_bracketed_error (ho : t.kind = .symbol .leftParen)
    (hp : below 0 items = ⟨.error f, n⟩) :
    operand atEnd below (.ok t :: items) = ⟨.error f, n + 1⟩ := by
  rw [operand_bracketed ho, bind_of_error hp, Parsed.after_mk, Nat.add_comm]

variable {s : Symbol} {op : PrefixOp}

theorem operand_prefixed_ok (hk : t.kind = .symbol s) (hl : s ≠ .leftParen)
    (hs : PrefixOp.ofSymbol? s = some op) (hp : below prefixPower items = ⟨.ok p, n⟩) :
    operand atEnd below (.ok t :: items) = ⟨.ok (.prefixed op p), n + 1⟩ := by
  rw [operand_prefixed hk hl hs, bind_of_ok hp]
  simp only [pure_apply, Parsed.after_mk]
  congr 1
  omega

theorem operand_prefixed_error (hk : t.kind = .symbol s) (hl : s ≠ .leftParen)
    (hs : PrefixOp.ofSymbol? s = some op) (hp : below prefixPower items = ⟨.error f, n⟩) :
    operand atEnd below (.ok t :: items) = ⟨.error f, n + 1⟩ := by
  rw [operand_prefixed hk hl hs, bind_of_error hp, Parsed.after_mk, Nat.add_comm]

variable {g : Builtin} {paren : Token} {args : List Phrase} {close : Text.Span} (hk : t.kind = .name)
  (hb : Binding.ofName? t.text = some (.function g)) (ho : paren.kind = .symbol .leftParen)

include hk hb ho

theorem operand_call_ok (ha : arguments below paren items = ⟨.ok (args, close), n⟩)
    (hn : args.length = g.arity) :
    operand atEnd below (.ok t :: .ok paren :: items) =
      ⟨.ok (.call t.text g args (t.span.upTo close)), n + 2⟩ := by
  rw [operand_name hk, named_function hb ho, bind_of_ok ha]
  simp only [hn, if_true, pure_apply, Parsed.after_mk]
  congr 1
  omega

theorem operand_call_mismatch (ha : arguments below paren items = ⟨.ok (args, close), n⟩)
    (hn : args.length ≠ g.arity) :
    operand atEnd below (.ok t :: .ok paren :: items) =
      ⟨.error (.syntactic (.arityMismatch t.text g.arity args.length (t.span.upTo close))), n + 2⟩ := by
  rw [operand_name hk, named_function hb ho, bind_of_ok ha]
  simp only [hn, if_false, fail_apply, Parsed.after_mk]
  congr 1
  omega

theorem operand_call_error (ha : arguments below paren items = ⟨.error f, n⟩) :
    operand atEnd below (.ok t :: .ok paren :: items) = ⟨.error f, n + 2⟩ := by
  rw [operand_name hk, named_function hb ho, bind_of_error ha]
  simp only [Parsed.after_mk]
  congr 1
  omega

end

end Parse

end Formula
