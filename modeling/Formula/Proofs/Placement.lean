import Formula.Proofs.Cutting
import Formula.Proofs.Grammar.Segment
import Formula.Proofs.Parsing.Nesting
import Formula.Proofs.Reuse
import Formula.Proofs.Scanning.Slices

namespace Formula

open Token (items)

section

variable {text : String} {t : Token} {ts : List Token}

theorem holds_of_token (h : .ok t ∈ tokenize text) : t.span.Holds text t.text := by
  have hholds := (Item.scanFrom_cut 0 text.toList).holds h
  exact hholds

theorem slice_of_symbol {s : Symbol} (h : .ok t ∈ tokenize text) (hk : t.kind = .symbol s) :
    t.slice = s.spelling := by
  obtain ⟨us, c, rest, -, -, ht⟩ := (Item.scanFrom_cut 0 text.toList).exists_lexeme h
  obtain ⟨hscan, -⟩ := Lexeme.locate_eq_ok ht.symm
  rw [hk] at hscan
  exact Lexeme.slice_of_symbol hscan

theorem ordered_of_tokenize (h : tokenize text = items ts) :
    ts.Pairwise fun t u => t.span.stop ≤ u.span.offset := by
  have hcut : Cut 0 text.toList (items ts) := h ▸ Item.scanFrom_cut 0 text.toList
  exact List.pairwise_map.mp hcut.stop_le_offset

end

theorem width_toList (text : String) : Text.width text.toList = text.utf8ByteSize := by
  rw [Text.width_eq_utf8ByteSize, String.ofList_toList]

theorem tokenize_slice {text : String} {mid : List Token} {x y : Token}
    (h : items (x :: (mid ++ [y])) <:+: tokenize text) :
    ∃ slice, (x.span.upTo y.span).Holds text slice ∧ (∃ rest, slice = x.text ++ rest) ∧
      (∃ front, slice = front ++ y.text) ∧
      (tokenize slice).map (·.shift x.span.offset) = items (x :: (mid ++ [y])) := by
  obtain ⟨us, vs, h⟩ := h
  have hitems : Item.scan text.toList = us ++ (.ok x :: items mid ++ .ok y :: vs) := by
    have hscan : Item.scan text.toList = _ := h.symm
    simpa using hscan
  obtain ⟨before, slice, after, hs, hx, hy, ⟨rest, hrest⟩, ⟨front, hfront⟩, hslice⟩ :=
    Item.scan_slice hitems
  have hx : x.span.offset = Text.width before := hx
  have hy : y.span.stop = Text.width (before ++ slice) := hy
  have hspan : x.span.upTo y.span = ⟨Text.width before, Text.width slice⟩ := by
    rw [Text.Span.upTo, hx, hy, Text.width_append, Nat.add_sub_cancel_left]
  refine ⟨String.ofList slice, ?_, ⟨String.ofList rest, ?_⟩, ⟨String.ofList front, ?_⟩, ?_⟩
  · rw [hspan]
    exact Text.holds_of_toList_eq hs
  · rw [← hrest, String.ofList_append]
    rfl
  · rw [← hfront, String.ofList_append]
    rfl
  · rw [tokenize, String.toList_ofList, hx, hslice]
    simp

theorem Derivation.parse_slice {limits : Limits} {slice : String} {ts : List Token} {p : Phrase}
    {d : Nat} (h : Derivation ts p) (ht : (tokenize slice).map (·.shift d) = items ts)
    (hl : Text.width slice.toList ≤ limits.maxLength) (hn : p.need ≤ limits.maxDepth) :
    ∃ e, parse limits slice = .ok e ∧ e.shift d = p.expr := by
  have hwhole := @Parse.whole_translates limits.maxDepth d ⟨Text.width slice.toList, 0⟩ (tokenize slice)
  rw [ht, h.whole_eq hn] at hwhole
  have hresult := congrArg (fun r => r.result.map Phrase.expr) hwhole
  simp only [result_shift, ← parse_eq_whole hl] at hresult
  rcases hr : parse limits slice with f | e
  · rw [hr] at hresult
    cases hresult
  · rw [hr] at hresult
    exact ⟨e, rfl, (Except.ok.inj hresult).symm⟩

section

variable {limits : Limits} {text : String} {ts : List Token} {levels : Nat} {span : Text.Span}

theorem factorial_placed {operand : Expr} (ht : tokenize text = items ts)
    (h : Segment ts levels (.factorial operand span)) :
    span.Holds text "!" ∧ ∀ d ∈ operand.subexpressions, ∀ s, d.span? = some s → s.stop ≤ span.offset := by
  obtain ⟨us, seg, t, vs, rfl, hk, rfl, hparts⟩ := h.factorial
  have hmem : .ok t ∈ tokenize text := by simp [ht]
  constructor
  · have hholds := holds_of_token hmem
    rwa [Token.text, slice_of_symbol hmem hk] at hholds
  · intro d hd s hs
    obtain ⟨-, u, hu, hstop⟩ := (hparts d hd).span_between hs
    have hordered := (List.pairwise_append.mp (ordered_of_tokenize ht)).2.1
    exact Nat.le_trans hstop ((List.pairwise_append.mp hordered).2.2 u hu t List.mem_cons_self)

theorem call_placed {name : String} {f : Builtin} {args : List Expr} (ht : tokenize text = items ts)
    (hl : Text.width text.toList ≤ limits.maxLength)
    (h : Segment ts limits.maxDepth (.call name f args span)) :
    (∃ slice, span.Holds text slice ∧ (∃ rest, slice = name ++ rest) ∧ (∃ front, slice = front ++ ")") ∧
      ∃ e, parse limits slice = .ok e ∧ e.shift span.offset = .call name f args span) ∧
    ∀ a ∈ args, ∀ d ∈ a.subexpressions, ∀ s, d.span? = some s →
      span.offset ≤ s.offset ∧ s.stop ≤ span.stop := by
  obtain ⟨us, t, paren, inner, close, vs, q, rfl, rfl, hc, rfl, hq, hn, he, hparts⟩ := h.call
  constructor
  · have hclose : close.text = ")" := by
      have hmem : .ok close ∈ tokenize text := by simp [ht]
      rw [Token.text, slice_of_symbol hmem hc]
      rfl
    have hcall : items (t :: (paren :: inner ++ [close])) <:+: tokenize text :=
      ⟨items us, items vs, by simp [ht]⟩
    obtain ⟨slice, hholds, hname, hend, hslice⟩ := tokenize_slice hcall
    have hfits : Text.width slice.toList ≤ limits.maxLength := by
      have hlength := hholds.length_le
      rw [width_toList] at hl ⊢
      exact Nat.le_trans hlength hl
    obtain ⟨e, hparse, hshift⟩ := hq.parse_slice hslice hfits hn
    rw [hclose] at hend
    exact ⟨slice, hholds, hname, hend, e, hparse, hshift.trans he⟩
  · intro a ha d hd s hs
    obtain ⟨⟨u, hu, hstart⟩, v, hv, hstop⟩ := (hparts a ha d hd).span_between hs
    have hordered := (List.pairwise_append.mp (ordered_of_tokenize ht)).2.1
    have hcall := (List.pairwise_append.mp hordered).1
    obtain ⟨hname, hbehind⟩ := List.pairwise_cons.mp hcall
    have hinner := (List.pairwise_append.mp (List.pairwise_cons.mp hbehind).2).2.2
    have hu := hname u (by simp [hu])
    have hv := hinner v hv close List.mem_cons_self
    have hclose := hname close (by simp)
    simp only [Text.Span.upTo, Text.Span.stop] at *
    omega

end

theorem segment_of_parse_eq {limits : Limits} {text : String} {e : Expr} (h : parse limits text = .ok e) :
    ∃ ts, tokenize text = items ts ∧ Text.width text.toList ≤ limits.maxLength ∧
      ∀ d ∈ e.subexpressions, Segment ts limits.maxDepth d := by
  obtain ⟨ts, p, ht, hp, rfl, hl, hn⟩ := derivation_within_of_parse_eq h
  refine ⟨ts, ht, hl, fun d hd => ?_⟩
  have hpart := (hp.derives.segment hp.fits d hd).widen [] [] hn
  simpa using hpart

theorem parse_places {limits : Limits} {text : String} {e : Expr} (h : parse limits text = .ok e) :
    (∀ operand span, .factorial operand span ∈ e.subexpressions →
      span.Holds text "!" ∧
      ∀ d ∈ operand.subexpressions, ∀ s, d.span? = some s → s.stop ≤ span.offset) ∧
    ∀ name f args span, .call name f args span ∈ e.subexpressions →
      (∃ slice, span.Holds text slice ∧ (∃ rest, slice = name ++ rest) ∧
        (∃ front, slice = front ++ ")") ∧
        ∃ e', parse limits slice = .ok e' ∧ e'.shift span.offset = .call name f args span) ∧
      ∀ a ∈ args, ∀ d ∈ a.subexpressions, ∀ s, d.span? = some s →
        span.offset ≤ s.offset ∧ s.stop ≤ span.stop := by
  obtain ⟨ts, ht, hl, hsegment⟩ := segment_of_parse_eq h
  constructor
  · intro operand span hmem
    exact factorial_placed ht (hsegment _ hmem)
  · intro name f args span hmem
    exact call_placed ht hl (hsegment _ hmem)

theorem parse_places_call_behind_sign :
    let call : Expr := .call "abs" (.unary Float.abs) [.factorial (.constant "π" Binding.pi) ⟨7, 1⟩] ⟨1, 8⟩
    parse {} "-abs(π!)" = .ok (.prefixed .negate call) ∧
      Text.Span.Holds ⟨7, 1⟩ "-abs(π!)" "!" ∧
      ∃ slice, Text.Span.Holds ⟨1, 8⟩ "-abs(π!)" slice ∧
        ∃ e', parse {} slice = .ok e' ∧ e'.shift 1 = call := by
  intro call
  let minus : Token := ⟨.symbol .minus, ['-'], 0⟩
  let name : Token := ⟨.name, ['a', 'b', 's'], 1⟩
  let paren : Token := ⟨.symbol .leftParen, ['('], 4⟩
  let constant : Token := ⟨.name, ['π'], 5⟩
  let bang : Token := ⟨.symbol .bang, ['!'], 7⟩
  let close : Token := ⟨.symbol .rightParen, [')'], 8⟩
  let p : Phrase :=
    .prefixed .negate (.call "abs" (.unary Float.abs) [.factorial (.constant "π" Binding.pi) ⟨7, 1⟩] ⟨1, 8⟩)
  have hconstant := @Derives.constant constant _ rfl rfl
  have hfactorial := @Derives.factorial bang _ _ (hconstant.loosen (by decide)) rfl
  have hcall := @Derives.call name paren close (.unary Float.abs) _ _ rfl rfl rfl (.last (hfactorial.loosen (by decide))) rfl
  have hsigned := @Derives.prefixed minus _ .negate _ _ (by decide) rfl (hcall.loosen (by decide))
  have hd : Derivation [minus, name, paren, constant, bang, close] p :=
    ⟨hsigned.loosen (by decide), rfl, trivial, trivial⟩
  have hl : Text.width "-abs(π!)".toList ≤ 4096 := by decide
  have hok : parse {} "-abs(π!)" = .ok (.prefixed .negate call) :=
    hd.parse_eq hl rfl (show 3 ≤ 64 by decide)
  obtain ⟨hfactorials, hcalls⟩ := parse_places hok
  obtain ⟨hbang, -⟩ := hfactorials (.constant "π" Binding.pi) ⟨7, 1⟩
    (.tail _ (.tail _ (.head _)))
  obtain ⟨⟨slice, hholds, -, -, e', hparse, hshift⟩, -⟩ := hcalls "abs" (.unary Float.abs) _ _ (.tail _ (.head _))
  exact ⟨hok, hbang, slice, hholds, e', hparse, hshift⟩

end Formula
