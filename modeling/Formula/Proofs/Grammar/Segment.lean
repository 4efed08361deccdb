import Formula.Proofs.Grammar.Derivation

namespace Formula

theorem Separated.exists_stretch {R : List Token → Phrase → Prop} {ts : List Token} {ps : List Phrase}
    {p : Phrase} (h : Separated R ts ps) (hp : p ∈ ps) :
    ∃ us seg vs, ts = us ++ (seg ++ vs) ∧ R seg p := by
  induction h with
  | @last ts q hq =>
    rw [List.mem_singleton.mp hp]
    exact ⟨[], ts, [], (List.append_nil ts).symm, hq⟩
  | @more t ts us q ps hq hk hps ih =>
    rcases List.mem_cons.mp hp with rfl | hp
    · exact ⟨[], ts, t :: us, rfl, hq⟩
    · obtain ⟨before, seg, after, rfl, hR⟩ := ih hp
      exact ⟨ts ++ t :: before, seg, after, by simp, hR⟩

def Phrase.Bare : Phrase → Prop
  | .bracketed _ => False
  | _ => True

/-- Some of the tokens in a row are derived to a phrase that has just the given expression, fits and needs
no more levels than are allowed. -/
def Segment (ts : List Token) (levels : Nat) (d : Expr) : Prop :=
  ∃ us seg vs l q, ts = us ++ (seg ++ vs) ∧ Derives l seg q ∧ q.Fits ∧ q.need ≤ levels ∧
    q.expr = d ∧ q.Bare

namespace Segment

variable {ts : List Token} {levels m : Nat} {d : Expr} {l : Layer} {p : Phrase}

theorem of_parts {es : List Expr} (h : Derives l ts p) (hf : p.Fits) (hb : p.Bare)
    (hparts : p.expr.subexpressions = p.expr :: es) (hes : ∀ d ∈ es, Segment ts p.need d) :
    ∀ d ∈ p.expr.subexpressions, Segment ts p.need d := by
  rw [hparts]
  refine List.forall_mem_cons.mpr ⟨?_, hes⟩
  exact ⟨[], ts, [], l, p, (List.append_nil ts).symm, h, hf, Nat.le_refl _, rfl, hb⟩

theorem widen (h : Segment ts m d) (us vs : List Token) (hm : m ≤ levels) :
    Segment (us ++ (ts ++ vs)) levels d := by
  obtain ⟨before, seg, after, l, q, rfl, hq, hf, hn, he⟩ := h
  exact ⟨us ++ before, seg, after ++ vs, l, q, by simp, hq, hf, Nat.le_trans hn hm, he⟩

theorem cons (h : Segment ts m d) (t : Token) (vs : List Token) (hm : m ≤ levels) :
    Segment (t :: (ts ++ vs)) levels d := h.widen [t] vs hm

theorem of_operands {us : List Token} {t : Token} {op : BinaryOp} {q : Phrase}
    (hp : ∀ d ∈ p.expr.subexpressions, Segment ts p.need d)
    (hq : ∀ d ∈ q.expr.subexpressions, Segment us q.need d) :
    ∀ d ∈ p.expr.subexpressions ++ q.expr.subexpressions,
      Segment (ts ++ t :: us) (Phrase.binary op p q).need d := by
  intro d hd
  have hneed : p.need ≤ (Phrase.binary op p q).need ∧ q.need ≤ (Phrase.binary op p q).need := by
    rw [Phrase.need]
    omega
  rcases List.mem_append.mp hd with hd | hd
  · exact (hp d hd).widen [] _ hneed.1
  · have hpart := (hq d hd).widen (ts ++ [t]) [] hneed.2
    simpa using hpart

end Segment

theorem Derives.segment {l : Layer} {ts : List Token} {p : Phrase} (h : Derives l ts p) (hf : p.Fits) :
    ∀ d ∈ p.expr.subexpressions, Segment ts p.need d := by
  induction h with
  | number hk => exact .of_parts (.number hk) hf trivial rfl (List.forall_mem_nil _)
  | constant hk hb => exact .of_parts (.constant hk hb) hf trivial rfl (List.forall_mem_nil _)
  | emptyCall hk hb ho hc =>
    exact .of_parts (.emptyCall hk hb ho hc) hf trivial rfl (List.forall_mem_nil _)
  | @call name paren close f ts args hk hb ho ha hc ih =>
    refine .of_parts (.call hk hb ho ha hc) hf trivial rfl fun d hd => ?_
    obtain ⟨e, he, hde⟩ := Expr.mem_subexpressionsAll.mp hd
    rw [Phrase.exprAll_eq_map] at he
    obtain ⟨p, hp, rfl⟩ := List.mem_map.mp he
    obtain ⟨us, seg, vs, rfl, -, harg⟩ := ih.exists_stretch hp
    have hneed := Phrase.need_lt_call hp name.text f (name.span.upTo close.span)
    have hpart := (harg (Phrase.fitsAll_iff.mp hf.2 p hp) d hde).widen (name :: paren :: us)
      (vs ++ [close]) (Nat.le_of_lt hneed)
    simpa using hpart
  | bracketed ho hp hc ih =>
    intro d hd
    exact (ih hf d hd).cons _ _ (Nat.le_add_left _ _)
  | factorial hp hk ih =>
    refine .of_parts (.factorial hp hk) hf trivial rfl fun d hd => ?_
    exact (ih hf d hd).widen [] _ (Nat.le_refl _)
  | @prefixed t s op ts p hs hk hp ih =>
    refine .of_parts (.prefixed hs hk hp) hf trivial rfl fun d hd => ?_
    have hpart := (ih hf d hd).cons t [] (Nat.le_add_left _ 1)
    rwa [List.append_nil] at hpart
  | power hp hk hq ihp ihq =>
    exact .of_parts (.power hp hk hq) hf trivial rfl (Segment.of_operands (ihp hf.1) (ihq hf.2))
  | binary hl hs hp hk hq ihp ihq =>
    exact .of_parts (.binary hl hs hp hk hq) hf trivial rfl (Segment.of_operands (ihp hf.1) (ihq hf.2))
  | tighter hl hp ih => exact ih hf

theorem Derives.of_factorial {l : Layer} {ts : List Token} {p : Phrase} {span : Text.Span}
    (h : Derives l ts (.factorial p span)) :
    ∃ us t, ts = us ++ [t] ∧ Derives .postfixed us p ∧ t.kind = .symbol .bang ∧ span = t.span := by
  generalize hq : Phrase.factorial p span = q at h
  induction h with
  | factorial hp hk =>
    cases hq
    exact ⟨_, _, rfl, hp, hk, rfl⟩
  | tighter hl hp ih => exact ih hq
  | _ => cases hq

theorem Derives.of_call {l : Layer} {ts : List Token} {name : String} {f : Builtin} {args : List Phrase}
    {span : Text.Span} (h : Derives l ts (.call name f args span)) :
    ∃ t paren inner close, ts = t :: paren :: (inner ++ [close]) ∧ t.text = name ∧
      close.kind = .symbol .rightParen ∧ span = t.span.upTo close.span ∧
      ∀ p ∈ args, ∃ us seg vs, inner = us ++ (seg ++ vs) ∧ Derives .comparison seg p := by
  generalize hq : Phrase.call name f args span = q at h
  induction h with
  | @emptyCall t paren close f hk hb ho hc =>
    cases hq
    exact ⟨t, paren, [], close, rfl, rfl, hc, rfl, fun p hp => (List.not_mem_nil hp).elim⟩
  | @call t paren close f inner args hk hb ho ha hc =>
    cases hq
    exact ⟨t, paren, inner, close, rfl, rfl, hc, rfl, fun p hp => ha.exists_stretch hp⟩
  | tighter hl hp ih => exact ih hq
  | _ => cases hq

namespace Segment

variable {ts : List Token} {levels : Nat} {span : Text.Span}

theorem factorial {operand : Expr} (h : Segment ts levels (.factorial operand span)) :
    ∃ us seg t vs, ts = us ++ (seg ++ t :: vs) ∧ t.kind = .symbol .bang ∧ span = t.span ∧
      ∀ d ∈ operand.subexpressions, Segment seg levels d := by
  obtain ⟨us, seg, vs, l, q, rfl, hq, hf, hn, he, hb⟩ := h
  cases q with
  | factorial p span' =>
    cases he
    obtain ⟨seg, t, rfl, hp, hk, rfl⟩ := hq.of_factorial
    refine ⟨us, seg, t, vs, by simp, hk, rfl, fun d hd => ?_⟩
    have hpart := (hp.segment hf d hd).widen [] [] hn
    simpa using hpart
  | bracketed inner => exact hb.elim
  | _ => cases he

theorem call {name : String} {f : Builtin} {args : List Expr}
    (h : Segment ts levels (.call name f args span)) :
    ∃ us t paren inner close vs q, ts = us ++ (t :: paren :: (inner ++ [close]) ++ vs) ∧ t.text = name ∧
      close.kind = .symbol .rightParen ∧ span = t.span.upTo close.span ∧
      Derivation (t :: paren :: (inner ++ [close])) q ∧ q.need ≤ levels ∧
      q.expr = .call name f args span ∧
      ∀ a ∈ args, ∀ d ∈ a.subexpressions, Segment inner levels d := by
  obtain ⟨us, seg, vs, l, q, rfl, hq, hf, hn, he, hb⟩ := h
  cases q with
  | call name f args span =>
    cases he
    obtain ⟨t, paren, inner, close, rfl, htext, hc, hspan, hargs⟩ := hq.of_call
    refine ⟨us, t, paren, inner, close, vs, _, rfl, htext, hc, hspan,
      ⟨hq.loosen Layer.comparison_floor_le, hf⟩, hn, rfl, fun a ha d hd => ?_⟩
    rw [Phrase.exprAll_eq_map] at ha
    obtain ⟨p, hp, rfl⟩ := List.mem_map.mp ha
    obtain ⟨before, seg, after, rfl, hseg⟩ := hargs p hp
    have hneed : p.need ≤ levels := Nat.le_trans (Nat.le_of_lt (Phrase.need_lt_call hp _ _ _)) hn
    exact (hseg.segment (Phrase.fitsAll_iff.mp hf.2 p hp) d hd).widen before after hneed
  | bracketed inner => exact hb.elim
  | _ => cases he

theorem span_between {d : Expr} (h : Segment ts levels d) (hs : d.span? = some span) :
    (∃ t ∈ ts, t.span.offset ≤ span.offset) ∧ ∃ t ∈ ts, span.stop ≤ t.span.stop := by
  cases d with
  | factorial operand span =>
    cases hs
    obtain ⟨us, seg, t, vs, rfl, -, rfl, -⟩ := h.factorial
    have ht : t ∈ us ++ (seg ++ t :: vs) := by simp
    exact ⟨⟨t, ht, Nat.le_refl _⟩, t, ht, Nat.le_refl _⟩
  | call name f args span =>
    cases hs
    obtain ⟨us, t, paren, inner, close, vs, q, rfl, -, -, rfl, -⟩ := h.call
    have ht : t ∈ us ++ (t :: paren :: (inner ++ [close]) ++ vs) := by simp
    have hc : close ∈ us ++ (t :: paren :: (inner ++ [close]) ++ vs) := by simp
    refine ⟨⟨t, ht, Nat.le_refl _⟩, ?_⟩
    by_cases hle : t.span.offset ≤ close.span.stop
    · exact ⟨close, hc, by simp only [Text.Span.upTo, Text.Span.stop] at hle ⊢; omega⟩
    · exact ⟨t, ht, by simp only [Text.Span.upTo, Text.Span.stop] at hle ⊢; omega⟩
  | _ => cases hs

end Segment

end Formula
