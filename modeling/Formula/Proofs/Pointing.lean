import Formula.Proofs.Grammar.Brackets
import Formula.Proofs.Parsing.Blame
import Formula.Proofs.Placement
import Formula.Proofs.Resolution

namespace Formula

open Token (items)

def Fault.PointsAt (text : String) : Fault → Prop
  | .lexical (.strayCharacter c span) => span.Holds text (String.singleton c)
  | .lexical (.flawedLiteral _ slice span) => span.Holds text (String.ofList slice)
  | .syntactic (.unexpectedToken found _ span) => span.Holds text found
  | .syntactic (.unexpectedEnd _ span) => span = ⟨text.utf8ByteSize, 0⟩
  | .syntactic (.unclosedParen span) => span.Holds text "("
  | .syntactic (.trailingInput found span) => span.Holds text found
  | .syntactic (.unknownName name span) => span.Holds text name
  | .syntactic (.constantCalled name span) => span.Holds text name
  | .syntactic (.functionNotCalled name span) => span.Holds text name
  | .syntactic (.arityMismatch name _ given span) =>
    (∃ slice, span.Holds text slice ∧ (∃ rest, slice = name ++ rest) ∧ ∃ front, slice = front ++ ")") ∧
      ∃ t paren inner close, Called (tokenize text) name given span t paren inner close ∧
        Token.openAfter 0 inner = some 0
  | .syntactic (.tooDeep _ span) =>
    (∃ t, .ok t ∈ tokenize text ∧ t.span = span) ∨ span = ⟨text.utf8ByteSize, 0⟩
  | .syntactic (.tooLong ..) => True
  | .domain (.factorial _ span) => span.Holds text "!"

def Fault.Inside (text : String) (f : Fault) : Prop :=
  ∀ span, f.span? = some span → span.stop ≤ text.utf8ByteSize ∧
    (String.Pos.Raw.mk span.offset).IsValid text ∧ (String.Pos.Raw.mk span.stop).IsValid text

section

variable {text : String} {f : Fault}

theorem holds_end (text : String) : Text.Span.Holds ⟨text.utf8ByteSize, 0⟩ text "" :=
  ⟨text, "", by simp, rfl, rfl⟩

theorem Fault.PointsAt.inside (h : f.PointsAt text) : f.Inside text := by
  intro span hs
  have hholds : ∃ slice, span.Holds text slice := by
    rcases f with f | f | f
    · cases f <;> cases hs <;> rw [PointsAt] at h <;> exact ⟨_, h⟩
    · cases f with
      | unexpectedEnd expected span' =>
        cases hs
        exact ⟨"", h ▸ holds_end text⟩
      | arityMismatch name arity given span' =>
        cases hs
        obtain ⟨⟨slice, hslice, -⟩, -⟩ := h
        exact ⟨slice, hslice⟩
      | tooDeep limit span' =>
        cases hs
        rcases h with ⟨t, ht, rfl⟩ | rfl
        · exact ⟨t.text, holds_of_token ht⟩
        · exact ⟨"", holds_end text⟩
      | tooLong length limit => cases hs
      | _ =>
        cases hs
        rw [PointsAt] at h
        exact ⟨_, h⟩
    · cases f
      cases hs
      rw [PointsAt] at h
      exact ⟨"!", h⟩
  obtain ⟨slice, hholds⟩ := hholds
  exact ⟨hholds.stop_le, hholds.isValid⟩

theorem Read.holds {found : String} {span : Text.Span} (h : Read (tokenize text) found span) :
    span.Holds text found := by
  obtain ⟨t, ht, rfl, rfl⟩ := h
  exact holds_of_token ht

theorem Given.openAfter_zero {inner : List Token} {given : Nat} (h : Given inner given) :
    Token.openAfter 0 inner = some 0 := by
  cases h with
  | nothing => rfl
  | arguments h => exact (h.balanced fun ts p hp => hp.balanced).openAfter_zero

theorem Fault.Blames.pointsAt {left : List Item}
    (h : f.Blames ⟨Text.width text.toList, 0⟩ (tokenize text) left) : f.PointsAt text := by
  rcases f with f | f | f
  · have hholds := (Item.scanFrom_cut 0 text.toList).holds (show Except.error f ∈ _ from h)
    cases f with
    | strayCharacter c span => rwa [PointsAt, String.singleton_eq_ofList]
    | flawedLiteral flaw slice span => exact hholds
  · cases f with
    | unexpectedEnd expected span =>
      rw [PointsAt, ← width_toList]
      exact h
    | unclosedParen span =>
      obtain ⟨t, ht, hk, rfl⟩ := h
      have hholds := holds_of_token ht
      rwa [Token.text, slice_of_symbol ht hk] at hholds
    | arityMismatch name arity given span =>
      obtain ⟨t, paren, inner, close, hcall⟩ := h
      obtain ⟨slice, hholds, hname, hend, -⟩ := tokenize_slice hcall.infix_all
      have hclose : close.text = ")" := by
        have hmem : .ok close ∈ tokenize text := hcall.infix_all.subset (by simp)
        rw [Token.text, slice_of_symbol hmem hcall.kind_close]
        rfl
      rw [hclose] at hend
      rw [← hcall.span_eq] at hholds
      rw [hcall.text_eq] at hname
      exact ⟨⟨slice, hholds, hname, hend⟩, t, paren, inner, close, hcall, hcall.inner_given.openAfter_zero⟩
    | tooDeep limit span =>
      obtain ⟨hleft, rfl⟩ := h
      rcases Parse.depthSpan_cases ⟨Text.width text.toList, 0⟩ left with ⟨t, ht, hspan⟩ | hspan
      · exact .inl ⟨t, hleft.subset ht, hspan⟩
      · exact .inr (hspan.trans (by rw [width_toList]))
    | tooLong length limit => trivial
    | unexpectedToken found expected span => exact Read.holds h
    | trailingInput found span => exact Read.holds h
    | unknownName name span => exact (ReadBefore.read h).holds
    | constantCalled name span => exact (ReadBefore.read h.1).holds
    | functionNotCalled name span => exact (ReadBefore.read h).holds
  · exact h.elim

end

namespace Parser

variable {text : String} {p : Parser}

structure Of (text : String) (p : Parser) : Prop where
  length_eq : p.length = Text.width text.toList
  unread_suffix : p.unread <:+ tokenize text

theorem Of.parse (h : p.Of text) : p.parse.2.Of text ∧ ∀ f, p.parse.1 = .error f → f.PointsAt text := by
  by_cases hl : p.length ≤ p.limits.maxLength
  · rw [parse_of_fits hl]
    refine ⟨⟨h.length_eq, (List.drop_suffix _ _).trans h.unread_suffix⟩, fun f hf => ?_⟩
    rcases hr : Parse.whole p.limits.maxDepth p.atEnd p.unread with ⟨g | q, n⟩
    · simp only [hr] at hf
      cases hf
      have hblames := Parse.whole_reports h.unread_suffix _ _ hr
      rw [atEnd, h.length_eq] at hblames
      exact hblames.pointsAt
    · simp only [hr] at hf
      cases hf
  · rw [parse_of_too_long (Nat.not_le.mp hl)]
    refine ⟨h, fun f hf => ?_⟩
    cases hf
    trivial

theorem Of.parseTimes (h : p.Of text) (calls : Nat) : ∀ f, .error f ∈ p.parseTimes calls → f.PointsAt text := by
  induction calls generalizing p with
  | zero => exact nofun
  | succ n ih =>
    intro f hf
    obtain ⟨hnext, hfirst⟩ := h.parse
    rcases List.mem_cons.mp hf with hf | hf
    · exact hfirst f hf.symm
    · exact ih hnext f hf

end Parser

theorem evaluate_points {limits : Limits} {text : String} {f : Fault} (h : evaluate limits text = .error f) :
    f.PointsAt text := by
  rcases hparse : parse limits text with g | e
  · rw [evaluate, hparse] at h
    cases h
    have hof : (Parser.ofText limits text.toList).Of text := ⟨rfl, List.suffix_rfl⟩
    exact hof.parse.2 _ hparse
  · rw [evaluate, hparse] at h
    have heval : e.eval = .error f := h
    rcases Expr.eval_ok_or_factorial (resolved_of_parse_eq hparse) with ⟨x, hx⟩ | hfactorial
    · cases hx.symm.trans heval
    · obtain ⟨g, hg, operand, span, x, hmem, -, -, rfl⟩ := hfactorial
      cases hg.symm.trans heval
      obtain ⟨ts, ht, -, hsegment⟩ := segment_of_parse_eq hparse
      exact (factorial_placed ht (hsegment _ hmem)).1

theorem faults_point_at_text (limits : Limits) (text : String) :
    (∀ calls, ∃ answers r,
      Reader.parseTimes limits (Text.width text.toList) calls (.ofText text.toList) = some (answers, r) ∧
      ∀ f, .error f ∈ answers → f.PointsAt text ∧ f.Inside text) ∧
    ∀ f, evaluate limits text = .error f → f.PointsAt text ∧ f.Inside text := by
  constructor
  · intro calls
    obtain ⟨r, hrun, -⟩ :=
      Reader.parseTimes_follows limits (Text.width text.toList) (Reader.idle_ofText text.toList) calls
    have hof : ((Reader.ofText text.toList).parser limits (Text.width text.toList)).Of text :=
      ⟨rfl, List.suffix_rfl⟩
    refine ⟨_, r, hrun, fun f hf => ?_⟩
    have hpoints := hof.parseTimes calls f hf
    exact ⟨hpoints, hpoints.inside⟩
  · intro f hf
    have hpoints := evaluate_points hf
    exact ⟨hpoints, hpoints.inside⟩

theorem faults_point_at_call_without_arguments :
    let f : Fault := .syntactic (.arityMismatch "abs" 1 0 ⟨1, 5⟩)
    evaluate {} "-abs()" = .error f ∧ f.PointsAt "-abs()" ∧ f.Inside "-abs()" := by
  intro f
  let minus : Token := ⟨.symbol .minus, ['-'], 0⟩
  let name : Token := ⟨.name, ['a', 'b', 's'], 1⟩
  let paren : Token := ⟨.symbol .leftParen, ['('], 4⟩
  let close : Token := ⟨.symbol .rightParen, [')'], 5⟩
  let atEnd : Text.Span := ⟨6, 0⟩
  have hname : Binding.ofName? name.text = some (.function (.unary Float.abs)) := rfl
  have hcall : Parse.operand atEnd (Parse.phrase 64 atEnd 62) (items [name, paren, close]) = ⟨.error f, 3⟩ :=
    Parse.operand_call_mismatch rfl hname rfl (Parse.arguments_close rfl) (by decide)
  have hsigned : Parse.operand atEnd (Parse.phrase 64 atEnd 63) (items [minus, name, paren, close]) =
      ⟨.error f, 4⟩ :=
    Parse.operand_prefixed_error rfl (by decide) rfl (Parse.phrase_of_operand_error hcall)
  have hwhole : Parse.whole 64 atEnd (items [minus, name, paren, close]) = ⟨.error f, 4⟩ :=
    Parse.bind_of_error (Parse.phrase_of_operand_error hsigned)
  have hl : Text.width "-abs()".toList ≤ 4096 := by decide
  have hparse : parse {} "-abs()" = .error f :=
    (parse_eq_whole hl).trans (congrArg (fun r => r.result.map Phrase.expr) hwhole)
  have heval : evaluate {} "-abs()" = .error f := by
    rw [evaluate, hparse]
    rfl
  exact ⟨heval, (faults_point_at_text {} "-abs()").2 f heval⟩

end Formula
