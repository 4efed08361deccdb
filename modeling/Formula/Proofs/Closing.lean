import Formula.Proofs.Parsing.Nesting
import Formula.Proofs.Parsing.Unwinding
import Formula.Proofs.Scanning.Slices

namespace Formula

open Parse Token

theorem breaks_closers (k : Nat) : Text.Breaks (List.replicate k ')') := by
  cases k with
  | zero => exact Text.breaks_nil
  | succ k => exact Text.breaks_cons (by decide)

theorem scan_closers (k : Nat) :
    Lexeme.scan ')' (List.replicate k ')') = .token (.symbol .rightParen) [')'] := by
  have hfits : (Lexeme.scan ')' ([] ++ [])).slice.length ≤ 1 := by decide
  exact Lexeme.scan_fits (u := []) (breaks_closers k) hfits

theorem cut_closers (offset k : Nat) :
    ∃ cs, cs.length = k ∧ Closers cs ∧ Cut offset (List.replicate k ')') (items cs) := by
  induction k generalizing offset with
  | zero => exact ⟨[], rfl, nofun, .nil⟩
  | succ k ih =>
    obtain ⟨cs, hlength, hc, hcut⟩ := ih (offset + 1)
    have hscan := scan_closers k
    refine ⟨⟨.symbol .rightParen, [')'], offset⟩ :: cs, congrArg (· + 1) hlength,
      List.forall_mem_cons.mpr ⟨rfl, hc⟩, ?_⟩
    have hpiece := @Cut.piece offset ')' (List.replicate k ')') (List.replicate k ')') (items cs)
      (by decide) (by rw [hscan]; rfl) (by rw [hscan]; exact hcut)
    rwa [hscan] at hpiece

theorem tokenize_append_closers (text : String) (k : Nat) :
    ∃ cs, cs.length = k ∧ Closers cs ∧
      tokenize (text ++ String.ofList (List.replicate k ')')) = tokenize text ++ items cs := by
  obtain ⟨cs, hlength, hc, hcut⟩ := cut_closers (0 + Text.width text.toList) k
  refine ⟨cs, hlength, hc, ?_⟩
  rw [tokenize, Item.scan, String.toList_append, String.toList_ofList]
  exact ((Item.scanFrom_cut 0 text.toList).append (breaks_closers k) hcut).scanFrom_eq

theorem Parse.Passes.whole_eq_of_ends {m n : Nat} {atEnd : Text.Span} {all : List Item}
    (h : Passes n (whole m atEnd all)) (atEnd' : Text.Span) : whole m atEnd' all = whole m atEnd all := by
  refine Parse.whole_eq_of_ends (fun f k hf => ?_) atEnd'
  rcases h with ⟨p, hp⟩ | ⟨g, j, hg, name, arity, given, span, rfl⟩
  · cases hf.symm.trans hp
  · cases hf.symm.trans hg
    exact id

theorem parse_mended {limits : Limits} {text : String} {span : Text.Span}
    (h : parse limits text = .error (.syntactic (.unclosedParen span))) :
    ∃ before paren after outer, tokenize text = (before ++ paren :: after).map .ok ∧
      paren.kind = .symbol .leftParen ∧ paren.span = span ∧
      Token.unclosed [] before = some outer ∧ Token.unclosed [] after = some [] ∧
      ∀ (wider : Limits) (closed : String),
        wider.maxDepth = limits.maxDepth → Text.width closed.toList ≤ wider.maxLength →
        closed = text ++ String.ofList (List.replicate (outer.length + 1) ')') →
        (∃ e, parse wider closed = .ok e) ∨
          ∃ name arity given call,
            parse wider closed = .error (.syntactic (.arityMismatch name arity given call)) := by
  have hl : Text.width text.toList ≤ limits.maxLength := by
    refine Nat.le_of_not_lt fun hlong => ?_
    rw [parse_of_too_long hlong] at h
    cases h
  rw [parse_eq_whole hl] at h
  rcases hr : whole limits.maxDepth ⟨Text.width text.toList, 0⟩ (tokenize text) with ⟨f | p, n⟩
  · rw [hr] at h
    cases h
    obtain ⟨ts, stack, htokens, hstack, hspan, hcs⟩ := whole_unwinds hr
    obtain ⟨paren, outer, rfl⟩ : ∃ paren outer, stack = paren :: outer := by
      rcases stack with _ | ⟨paren, outer⟩
      · cases hspan
      · exact ⟨paren, outer, rfl⟩
    obtain ⟨before, after, rfl, hk, hbefore, hafter⟩ := unclosed_split hstack
    refine ⟨before, paren, after, outer, htokens, hk, Option.some.inj hspan, hbefore, hafter,
      fun wider closed hdepth hfits hclosed => ?_⟩
    obtain ⟨cs, hlength, hc, htokenize⟩ := tokenize_append_closers text (outer.length + 1)
    have hpasses := hcs cs hlength hc
    rw [parse_eq_whole hfits, hclosed, htokenize, htokens, ← items_append, hdepth, hpasses.whole_eq_of_ends]
    rcases hpasses with ⟨p, hp⟩ | ⟨g, j, hg, name, arity, given, call, rfl⟩
    · exact .inl ⟨p.expr, by rw [hp]; rfl⟩
    · exact .inr ⟨name, arity, given, call, by rw [hg]; rfl⟩
  · rw [hr] at h
    cases h

theorem parse_mended_call :
    parse {} "abs((π" = .error (.syntactic (.unclosedParen ⟨4, 1⟩)) ∧
      ((∃ e, parse {} "abs((π))" = .ok e) ∨
        ∃ name arity given call,
          parse {} "abs((π))" = .error (.syntactic (.arityMismatch name arity given call))) := by
  let name : Token := ⟨.name, ['a', 'b', 's'], 0⟩
  let outer : Token := ⟨.symbol .leftParen, ['('], 3⟩
  let inner : Token := ⟨.symbol .leftParen, ['('], 4⟩
  let constant : Token := ⟨.name, ['π'], 5⟩
  let atEnd : Text.Span := ⟨7, 0⟩
  have hend : Ends 0 [] := trivial
  have hoperand : operand atEnd (phrase 64 atEnd 61) (items [constant]) =
      ⟨.ok (.constant "π" Binding.pi), 1⟩ := operand_constant rfl rfl hend
  have hphrase : phrase 64 atEnd 62 0 (items [constant]) = ⟨.ok (.constant "π" Binding.pi), 1⟩ := by
    rw [phrase_of_operand hoperand]
    exact congrArg (Parsed.after 1) (climb_of_stops hend.stops)
  have hbracketed : operand atEnd (phrase 64 atEnd 62) (items [inner, constant]) =
      ⟨.error (.syntactic (.unclosedParen ⟨4, 1⟩)), 2⟩ := by
    rw [items_cons, operand_bracketed rfl, bind_of_ok hphrase]
    rfl
  have hbelow : phrase 64 atEnd 63 0 (items [inner, constant]) =
      ⟨.error (.syntactic (.unclosedParen ⟨4, 1⟩)), 2⟩ := phrase_of_operand_error hbracketed
  have harguments : arguments (phrase 64 atEnd 63) outer (items [inner, constant]) =
      ⟨.error (.syntactic (.unclosedParen ⟨4, 1⟩)), 2⟩ :=
    (arguments_more (by rintro ⟨⟩)).trans (moreArguments_of_error hbelow)
  have hcall : operand atEnd (phrase 64 atEnd 63) (items [name, outer, inner, constant]) =
      ⟨.error (.syntactic (.unclosedParen ⟨4, 1⟩)), 4⟩ :=
    operand_call_error rfl rfl rfl harguments
  have hwhole : whole 64 atEnd (items [name, outer, inner, constant]) =
      ⟨.error (.syntactic (.unclosedParen ⟨4, 1⟩)), 4⟩ := bind_of_error (phrase_of_operand_error hcall)
  have hl : Text.width "abs((π".toList ≤ 4096 := by decide
  have hparse : parse {} "abs((π" = .error (.syntactic (.unclosedParen ⟨4, 1⟩)) :=
    (parse_eq_whole hl).trans (congrArg (fun r => r.result.map Phrase.expr) hwhole)
  obtain ⟨before, paren, after, further, htokens, hk, -, hbefore, hafter, hmended⟩ := parse_mended hparse
  have htokens : [name, outer, inner, constant] = before ++ paren :: after :=
    (List.map_inj_right fun _ _ => Except.ok.inj).mp htokens
  have hopen : some [inner, outer] = some (paren :: further) := by
    change unclosed [] [name, outer, inner, constant] = _
    rw [htokens, unclosed_append, hbefore, Option.bind_some, unclosed_open hk]
    exact unclosed_within hafter (paren :: further)
  cases hopen
  exact ⟨hparse, hmended {} "abs((π))" rfl (by decide) (by decide)⟩

end Formula
