import Mathlib.Data.List.Forall2
import Formula.Proofs.Parsing.Agreement
import Formula.Proofs.Parsing.Climbing

/-!
On items that stand elsewhere in a text the parser does the same, with all spans moved. Two texts are
compared by what becomes of their spans: each is moved in a way of its own.
-/

namespace Formula

section

variable (move : Text.Span → Text.Span)

namespace Phrase

mutual

def mapSpans : Phrase → Phrase
  | number value => .number value
  | constant name value => .constant name value
  | bracketed inner => .bracketed inner.mapSpans
  | prefixed op operand => .prefixed op operand.mapSpans
  | binary op left right => .binary op left.mapSpans right.mapSpans
  | factorial operand span => .factorial operand.mapSpans (move span)
  | call name function args span => .call name function (mapSpansAll args) (move span)

def mapSpansAll : List Phrase → List Phrase
  | [] => []
  | p :: ps => p.mapSpans :: mapSpansAll ps

end

theorem length_mapSpansAll (ps : List Phrase) : (mapSpansAll move ps).length = ps.length := by
  induction ps with
  | nil => rfl
  | cons p ps ih => rw [mapSpansAll, List.length_cons, List.length_cons, ih]

mutual

theorem expr_mapSpans : (p : Phrase) → (p.mapSpans move).expr = p.expr.mapSpans move
  | number _ => rfl
  | constant _ _ => rfl
  | bracketed inner => inner.expr_mapSpans
  | prefixed op operand => congrArg (Expr.prefixed op) operand.expr_mapSpans
  | binary op left right => congrArg₂ (Expr.binary op) left.expr_mapSpans right.expr_mapSpans
  | factorial operand _ => congrArg (Expr.factorial · _) operand.expr_mapSpans
  | call name function args _ => congrArg (Expr.call name function · _) (exprAll_mapSpansAll args)

theorem exprAll_mapSpansAll :
    (ps : List Phrase) → exprAll (mapSpansAll move ps) = Expr.mapSpansAll move (exprAll ps)
  | [] => rfl
  | p :: ps => congrArg₂ List.cons p.expr_mapSpans (exprAll_mapSpansAll ps)

end

mutual

theorem mapSpans_id : (p : Phrase) → p.mapSpans id = p
  | number _ => rfl
  | constant _ _ => rfl
  | bracketed inner => congrArg bracketed inner.mapSpans_id
  | prefixed op operand => congrArg (prefixed op) operand.mapSpans_id
  | binary op left right => congrArg₂ (binary op) left.mapSpans_id right.mapSpans_id
  | factorial operand span => congrArg (factorial · span) operand.mapSpans_id
  | call name function args span => congrArg (call name function · span) (mapSpansAll_id args)

theorem mapSpansAll_id : (ps : List Phrase) → mapSpansAll id ps = ps
  | [] => rfl
  | p :: ps => congrArg₂ List.cons p.mapSpans_id (mapSpansAll_id ps)

end

def shift (d : Nat) (p : Phrase) : Phrase := p.mapSpans (·.shift d)

theorem expr_shift (d : Nat) (p : Phrase) : (p.shift d).expr = p.expr.shift d :=
  p.expr_mapSpans _

end Phrase

def LexicalFault.mapSpans : LexicalFault → LexicalFault
  | strayCharacter c span => .strayCharacter c (move span)
  | flawedLiteral flaw slice span => .flawedLiteral flaw slice (move span)

def SyntacticFault.mapSpans : SyntacticFault → SyntacticFault
  | unexpectedToken found expected span => .unexpectedToken found expected (move span)
  | unexpectedEnd expected span => .unexpectedEnd expected (move span)
  | unclosedParen span => .unclosedParen (move span)
  | trailingInput found span => .trailingInput found (move span)
  | unknownName name span => .unknownName name (move span)
  | constantCalled name span => .constantCalled name (move span)
  | functionNotCalled name span => .functionNotCalled name (move span)
  | arityMismatch name arity given span => .arityMismatch name arity given (move span)
  | tooDeep limit span => .tooDeep limit (move span)
  | tooLong length limit => .tooLong length limit

def DomainFault.mapSpans : DomainFault → DomainFault
  | factorial operand span => .factorial operand (move span)

def Fault.mapSpans : Fault → Fault
  | lexical f => .lexical (f.mapSpans move)
  | syntactic f => .syntactic (f.mapSpans move)
  | domain f => .domain (f.mapSpans move)

end

theorem Fault.mapSpans_shift (d : Nat) (f : Fault) : f.mapSpans (·.shift d) = f.shift d := by
  rcases f with f | f | f <;> cases f <;> rfl

theorem Fault.mapSpans_id (f : Fault) : f.mapSpans id = f := by
  rcases f with f | f | f <;> cases f <;> rfl

namespace Text.Span

def Meet (move move' : Span → Span) : Prop :=
  ∀ s t s' t' : Span, move s = move' s' → move t = move' t' → move (s.upTo t) = move' (s'.upTo t')

theorem meet_shift (d : Nat) : Meet (·.shift d) id := by
  rintro s t _ _ rfl rfl
  exact shift_upTo d s t

end Text.Span

section

variable (move move' : Text.Span → Text.Span)

def Token.Alike (t t' : Token) : Prop :=
  (∃ offset, t' = { t with offset }) ∧ move t.span = move' t'.span

def Item.Alike : Item → Item → Prop
  | .ok t, .ok t' => t.Alike move move' t'
  | .error f, .error f' => Fault.mapSpans move (.lexical f) = Fault.mapSpans move' (.lexical f')
  | _, _ => False

inductive Parsed.Alike {α β : Type} (S : α → β → Prop) : Parsed α → Parsed β → Prop where
  | ok {x : α} {y : β} (h : S x y) (n : Nat) : Alike S ⟨.ok x, n⟩ ⟨.ok y, n⟩
  | error {f f' : Fault} (h : f.mapSpans move = f'.mapSpans move') (n : Nat) :
    Alike S ⟨.error f, n⟩ ⟨.error f', n⟩

theorem Parsed.Alike.after {move move' : Text.Span → Text.Span} {α β : Type} {S : α → β → Prop}
    {r : Parsed α} {r' : Parsed β} (h : r.Alike move move' S r') (n : Nat) :
    (r.after n).Alike move move' S (r'.after n) := by
  cases h with
  | ok h m => exact .ok h (n + m)
  | error h m => exact .error h (n + m)

def Phrase.Alike (p p' : Phrase) : Prop := p.mapSpans move = p'.mapSpans move'

end

namespace Parse

section

variable (move move' : Text.Span → Text.Span)

def Alike {α β : Type} (S : α → β → Prop) (p : Parse α) (q : Parse β) (all all' : List Item) : Prop :=
  (p all).Alike move move' S (q all')

def AlikeBelow (below below' : Below) : Prop :=
  ∀ power all all', List.Forall₂ (Item.Alike move move') all all' →
    Alike move move' (Phrase.Alike move move') (below power) (below' power) all all'

def AlikeArguments (x x' : List Phrase × Text.Span) : Prop :=
  Phrase.mapSpansAll move x.1 = Phrase.mapSpansAll move' x'.1 ∧ move x.2 = move' x'.2

end

variable {move move' : Text.Span → Text.Span} {all all' : List Item}

section

variable {α β γ δ : Type} {S : α → β → Prop} {T : γ → δ → Prop} {p : Parse α} {q : Parse β}
  {k : α → Parse γ} {k' : β → Parse δ}

theorem Alike.bind (hp : Alike move move' S p q all all')
    (hk : ∀ x y n, S x y → p all = ⟨.ok x, n⟩ →
      Alike move move' T (k x) (k' y) (all.drop n) (all'.drop n)) :
    Alike move move' T (p >>= k) (q >>= k') all all' := by
  rw [Alike] at hp
  generalize hr : p all = r at hp
  generalize hr' : q all' = r' at hp
  cases hp with
  | ok h n =>
    rw [Alike, bind_of_ok hr, bind_of_ok hr']
    exact (hk _ _ n h hr).after n
  | error h n =>
    rw [Alike, bind_of_error hr, bind_of_error hr']
    exact .error h n

theorem alike_pure {x : α} {y : β} (h : S x y) :
    Alike move move' S (Pure.pure x) (Pure.pure y) all all' := .ok h 0

theorem alike_fail {span span' : Text.Span} (fault : Text.Span → SyntacticFault)
    (hf : ∀ f s, (fault s).mapSpans f = fault (f s)) (hs : move span = move' span') :
    Alike move move' S (fail (.syntactic (fault span))) (fail (.syntactic (fault span'))) all all' := by
  refine .error ?_ 0
  rw [Fault.mapSpans, Fault.mapSpans, hf, hf, hs]

end

variable {t t' paren paren' : Token} {below below' : Below} {atEnd atEnd' : Text.Span} {power : Nat}

section

variable (ha : List.Forall₂ (Item.Alike move move') all all')

include ha

theorem next_alike : Alike move move' (Option.Rel (Token.Alike move move')) next next all all' := by
  cases ha with
  | nil => exact .ok .none 0
  | @cons x y _ _ h _ =>
    rcases x with f | t <;> rcases y with f' | t'
    · exact .error h 1
    · exact h.elim
    · exact h.elim
    · exact .ok (.some h) 1

theorem peek_alike : Alike move move' (Option.Rel (Token.Alike move move')) peek peek all all' := by
  cases ha with
  | nil => exact .ok .none 0
  | @cons x y _ _ h _ =>
    rcases x with f | t <;> rcases y with f' | t'
    · exact .error h 0
    · exact h.elim
    · exact h.elim
    · exact .ok (.some h) 0

theorem closing_alike (hp : paren.Alike move move' paren') :
    Alike move move' Eq (closing paren) (closing paren') all all' := by
  refine (next_alike ha).bind fun ahead ahead' n h _ => ?_
  cases h with
  | none => exact alike_fail .unclosedParen (fun _ _ => rfl) hp.2
  | @some t t' h =>
    obtain ⟨⟨o, rfl⟩, hs⟩ := h
    change Alike _ _ _ (if t.isSymbol .rightParen then _ else _) (if t.isSymbol .rightParen then _ else _) _ _
    by_cases hr : t.isSymbol .rightParen
    · simp only [hr, if_true]
      exact alike_pure rfl
    · simp only [hr, Bool.false_eq_true, if_false]
      exact alike_fail (.unexpectedToken t.text .closingParen) (fun _ _ => rfl) hs

end

theorem moreArguments_alike {all all' : List Item} (h : AlikeBelow move move' below below')
    (hp : paren.Alike move move' paren') (ha : List.Forall₂ (Item.Alike move move') all all') :
    Alike move move' (AlikeArguments move move') (moreArguments below paren) (moreArguments below' paren')
      all all' := by
  rw [moreArguments_bind, moreArguments_bind]
  refine (h 0 all all' ha).bind fun p p' n hpp _ => ?_
  have ha := List.forall₂_drop n ha
  refine (next_alike ha).bind fun ahead ahead' m hahead hm => ?_
  have ha := List.forall₂_drop m ha
  cases hahead with
  | none => exact alike_fail .unclosedParen (fun _ _ => rfl) hp.2
  | @some u u' hu =>
    have hlt := next_lt hm
    obtain ⟨⟨o, rfl⟩, hs⟩ := hu
    change Alike _ _ _ (if u.isSymbol .comma then _ else if u.isSymbol .rightParen then _ else _)
      (if u.isSymbol .comma then _ else if u.isSymbol .rightParen then _ else _) _ _
    by_cases hc : u.isSymbol .comma
    · simp only [hc, if_true]
      refine (moreArguments_alike h hp ha).bind fun x x' _ hx _ => alike_pure ⟨?_, hx.2⟩
      exact congrArg₂ List.cons hpp hx.1
    · by_cases hr : u.isSymbol .rightParen
      · simp only [hc, hr, if_true]
        exact alike_pure ⟨congrArg (fun p => [p]) hpp, hs⟩
      · simp only [hc, hr, Bool.false_eq_true, if_false]
        exact alike_fail (.unexpectedToken u.text .commaOrClosingParen) (fun _ _ => rfl) hs
termination_by all.length
decreasing_by
  simp only [List.length_drop] at *
  omega

theorem filter_alike {ahead ahead' : Option Token} (h : Option.Rel (Token.Alike move move') ahead ahead')
    (x : Symbol) :
    Option.Rel (Token.Alike move move') (ahead.filter (·.isSymbol x)) (ahead'.filter (·.isSymbol x)) := by
  cases h with
  | none => exact .none
  | @some t t' h =>
    obtain ⟨⟨o, rfl⟩, hs⟩ := id h
    rw [Option.filter_some, Option.filter_some]
    change Option.Rel _ _ (if t.isSymbol x then _ else _)
    by_cases hx : t.isSymbol x
    · rw [if_pos hx, if_pos hx]
      exact .some h
    · rw [if_neg hx, if_neg hx]
      exact .none

theorem arguments_alike (h : AlikeBelow move move' below below') (hp : paren.Alike move move' paren')
    (ha : List.Forall₂ (Item.Alike move move') all all') :
    Alike move move' (AlikeArguments move move') (arguments below paren) (arguments below' paren')
      all all' := by
  refine (peek_alike ha).bind fun ahead ahead' n hahead _ => ?_
  have ha := List.forall₂_drop n ha
  generalize hclose : ahead.filter (·.isSymbol .rightParen) = close
  generalize hclose' : ahead'.filter (·.isSymbol .rightParen) = close'
  have hrel := filter_alike hahead .rightParen
  rw [hclose, hclose'] at hrel
  cases hrel with
  | none => exact moreArguments_alike h hp ha
  | some hs => exact (next_alike ha).bind fun _ _ _ _ _ => alike_pure ⟨rfl, hs.2⟩

theorem climb_alike {all all' : List Item} {left left' : Phrase} (h : AlikeBelow move move' below below')
    (hl : left.Alike move move' left') (ha : List.Forall₂ (Item.Alike move move') all all') :
    Alike move move' (Phrase.Alike move move') (climb below power left) (climb below' power left') all all' := by
  rw [climb_eq, climb_eq]
  refine (peek_alike ha).bind fun ahead ahead' n hahead hpeek => ?_
  obtain ⟨rfl, hhead⟩ := of_peek_ok hpeek
  cases hahead with
  | none => exact alike_pure hl
  | @some t t' ht =>
    obtain ⟨⟨o, rfl⟩, hs⟩ := ht
    simp only
    rw [show Suffix.ofToken? ({ t with offset := o } : Token) = Suffix.ofToken? t from rfl]
    cases Suffix.ofToken? t with
    | none => exact alike_pure hl
    | some suffix =>
      by_cases hlt : suffix.power < power
      · simp only [hlt, if_true]
        exact alike_pure hl
      · simp only [hlt, if_false]
        obtain ⟨rest, hall⟩ := hhead t rfl
        refine (next_alike ha).bind fun _ _ m _ hnext => ?_
        have ha := List.forall₂_drop m ha
        rw [hall] at hnext
        cases hnext
        cases suffix with
        | factorial =>
          refine climb_alike h ?_ ha
          rw [Phrase.Alike, Phrase.mapSpans, Phrase.mapSpans, hl, hs]
        | binary op =>
          refine (h op.rightPower _ _ ha).bind fun right right' k hr _ => ?_
          refine climb_alike h ?_ (List.forall₂_drop k ha)
          exact congrArg₂ (Phrase.binary op) hl hr
termination_by all.length
decreasing_by
  all_goals
    have hlength := congrArg List.length hall
    simp only [List.length_drop, List.length_cons] at hlength ⊢
    omega

variable (hmeet : Text.Span.Meet move move')

include hmeet

theorem named_alike (h : AlikeBelow move move' below below') (ht : t.Alike move move' t')
    (ha : List.Forall₂ (Item.Alike move move') all all') :
    Alike move move' (Phrase.Alike move move') (named below t) (named below' t') all all' := by
  refine (peek_alike ha).bind fun ahead ahead' n hahead _ => ?_
  have ha := List.forall₂_drop n ha
  generalize hparen : ahead.filter (·.isSymbol .leftParen) = paren
  generalize hparen' : ahead'.filter (·.isSymbol .leftParen) = paren'
  have hrel := filter_alike hahead .leftParen
  rw [hparen, hparen'] at hrel
  obtain ⟨⟨o, rfl⟩, hs⟩ := ht
  rw [show ({ t with offset := o } : Token).text = t.text from rfl]
  cases Binding.ofName? t.text with
  | none => exact alike_fail (.unknownName t.text) (fun _ _ => rfl) hs
  | some binding =>
    cases hrel with
    | none =>
      cases binding with
      | constant value => exact alike_pure rfl
      | function f => exact alike_fail (.functionNotCalled t.text) (fun _ _ => rfl) hs
    | some hp =>
      cases binding with
      | constant value => exact alike_fail (.constantCalled t.text) (fun _ _ => rfl) hs
      | function f =>
        refine (next_alike ha).bind fun _ _ m _ _ => ?_
        refine (arguments_alike h hp (List.forall₂_drop m ha)).bind fun x x' _ hx _ => ?_
        have hlength : x'.1.length = x.1.length := by
          have hmapped := congrArg List.length hx.1
          rw [Phrase.length_mapSpansAll, Phrase.length_mapSpansAll] at hmapped
          exact hmapped.symm
        have hspan := hmeet _ _ _ _ hs hx.2
        simp only [hlength]
        by_cases hn : x.1.length = f.arity
        · simp only [hn, if_true]
          refine alike_pure ?_
          rw [Phrase.Alike, Phrase.mapSpans, Phrase.mapSpans, hx.1, hspan]
        · simp only [hn, if_false]
          exact alike_fail (.arityMismatch t.text f.arity x.1.length) (fun _ _ => rfl) hspan

theorem operand_alike (h : AlikeBelow move move' below below') (hend : move atEnd = move' atEnd')
    (ha : List.Forall₂ (Item.Alike move move') all all') :
    Alike move move' (Phrase.Alike move move') (operand atEnd below) (operand atEnd' below') all all' := by
  refine (next_alike ha).bind fun ahead ahead' n hahead _ => ?_
  have ha := List.forall₂_drop n ha
  cases hahead with
  | none => exact alike_fail (.unexpectedEnd .expression) (fun _ _ => rfl) hend
  | @some t t' ht =>
    obtain ⟨⟨o, rfl⟩, hs⟩ := id ht
    simp only
    cases hk : t.kind with
    | number value => exact alike_pure rfl
    | name => exact named_alike hmeet h ⟨⟨o, by rw [hk]⟩, hs⟩ ha
    | symbol x =>
      by_cases hl : x = .leftParen
      · subst hl
        refine (h 0 _ _ ha).bind fun p p' m hpp _ => ?_
        refine (closing_alike (List.forall₂_drop m ha) ht).bind fun _ _ _ _ _ => alike_pure ?_
        exact congrArg Phrase.bracketed hpp
      · cases hop : PrefixOp.ofSymbol? x with
        | none =>
          simp only [hop]
          exact alike_fail (.unexpectedToken t.text .expression) (fun _ _ => rfl) hs
        | some op =>
          simp only [hop]
          exact (h prefixPower _ _ ha).bind fun _ _ _ hpp _ => alike_pure (congrArg (Phrase.prefixed op) hpp)

variable {limit levels maxDepth : Nat}

theorem phrase_alike (hend : move atEnd = move' atEnd') :
    AlikeBelow move move' (phrase limit atEnd levels) (phrase limit atEnd' levels) := by
  induction levels with
  | zero =>
    intro power all all' ha
    have hspan : move (depthSpan atEnd all) = move' (depthSpan atEnd' all') := by
      cases ha with
      | nil => exact hend
      | @cons x y _ _ h _ =>
        rcases x with f | t <;> rcases y with f' | t'
        · exact hend
        · exact h.elim
        · exact h.elim
        · exact h.2
    exact @alike_fail _ _ all all' _ _ _ _ _ (.tooDeep limit) (fun _ _ => rfl) hspan
  | succ levels ih =>
    intro power all all' ha
    refine (operand_alike hmeet ih hend ha).bind fun left left' n hl _ => ?_
    exact climb_alike ih hl (List.forall₂_drop n ha)

theorem whole_alike (hend : move atEnd = move' atEnd') (ha : List.Forall₂ (Item.Alike move move') all all') :
    Alike move move' (Phrase.Alike move move') (whole maxDepth atEnd) (whole maxDepth atEnd') all all' := by
  refine (phrase_alike hmeet hend 0 all all' ha).bind fun p p' n hp _ => ?_
  have ha := List.forall₂_drop n ha
  refine (next_alike ha).bind fun ahead ahead' m hahead _ => ?_
  cases hahead with
  | none => exact alike_pure hp
  | @some t t' ht =>
    obtain ⟨⟨o, rfl⟩, hs⟩ := ht
    exact alike_fail (.trailingInput t.text) (fun _ _ => rfl) hs

end Parse

def Parsed.shift {α β : Type} (d : Nat) (g : α → β) (r : Parsed α) : Parsed β :=
  ⟨(r.result.map g).mapError (·.shift d), r.used⟩

theorem Item.alike_shift (d : Nat) (x : Item) : x.Alike (·.shift d) id (x.shift d) := by
  rcases x with f | t
  · exact (Fault.mapSpans_shift d _).trans (Fault.mapSpans_id _).symm
  · exact ⟨⟨t.offset + d, rfl⟩, rfl⟩

theorem Parse.whole_translates {maxDepth d : Nat} {atEnd : Text.Span} {all : List Item} :
    whole maxDepth (atEnd.shift d) (all.map (·.shift d)) =
      (whole maxDepth atEnd all).shift d (·.shift d) := by
  have hall : List.Forall₂ (Item.Alike (·.shift d) id) all (all.map (·.shift d)) :=
    List.forall₂_map_right_iff.mpr (List.forall₂_same.mpr fun x _ => x.alike_shift d)
  have halike : Alike (·.shift d) id (Phrase.Alike (·.shift d) id) (whole maxDepth atEnd)
      (whole maxDepth (atEnd.shift d)) all (all.map (·.shift d)) :=
    whole_alike (Text.Span.meet_shift d) rfl hall
  rw [Alike] at halike
  generalize whole maxDepth atEnd all = r at halike ⊢
  generalize whole maxDepth (atEnd.shift d) (all.map (·.shift d)) = r' at halike ⊢
  cases halike with
  | ok h n =>
    rw [Phrase.Alike, Phrase.mapSpans_id] at h
    rw [← h]
    rfl
  | error h n =>
    rw [Fault.mapSpans_shift, Fault.mapSpans_id] at h
    rw [← h]
    rfl

end Formula
